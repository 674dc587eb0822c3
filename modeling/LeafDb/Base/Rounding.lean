import Mathlib

/-!
# Rounding to the nearest integer

`halfEven m` is the integer nearest to `m`, ties to even. It is characterised by the integers below and above it;
`floor_halfEven_mul` and `halfEven_div_mul` say when rounding to a multiple of a unit keeps the integer part.
-/

namespace LeafDb

variable {K : Type*} [Field K] [LinearOrder K] [IsStrictOrderedRing K] [FloorRing K] {m q : K} {n : ℤ} {c : ℕ}

/-- The integer nearest to `m`, ties to even. -/
def halfEven (m : K) : ℤ :=
  if m - ⌊m⌋ < ⌊m⌋ + 1 - m ∨ (m - ⌊m⌋ = ⌊m⌋ + 1 - m ∧ ⌊m⌋ % 2 = 0) then ⌊m⌋ else ⌊m⌋ + 1

theorem halfEven_eq (m : K) :
    halfEven m = if m - ⌊m⌋ < 1 / 2 ∨ (m - ⌊m⌋ = 1 / 2 ∧ ⌊m⌋ % 2 = 0) then ⌊m⌋ else ⌊m⌋ + 1 := by
  have hlt : m - ⌊m⌋ < ⌊m⌋ + 1 - m ↔ m - ⌊m⌋ < 1 / 2 := by constructor <;> intro h <;> linarith
  have heq : m - ⌊m⌋ = ⌊m⌋ + 1 - m ↔ m - ⌊m⌋ = 1 / 2 := by constructor <;> intro h <;> linarith
  simp only [halfEven, hlt, heq]

theorem halfEven_le_iff : halfEven m ≤ n ↔ m < n + 1 / 2 ∨ (m = n + 1 / 2 ∧ n % 2 = 0) := by
  have hfloor : (⌊m⌋ : K) ≤ m := Int.floor_le m
  have hnext : m < ⌊m⌋ + 1 := Int.lt_floor_add_one m
  rcases lt_trichotomy n ⌊m⌋ with hn | rfl | hn
  · have hn' : (n : K) + 1 ≤ ⌊m⌋ := by exact_mod_cast hn
    have hlow : ⌊m⌋ ≤ halfEven m := by
      unfold halfEven
      split <;> omega
    constructor
    · intro h
      omega
    · rintro (h | ⟨h, -⟩) <;> linarith
  · rw [halfEven_eq, ← sub_lt_iff_lt_add', ← sub_eq_iff_eq_add']
    split
    · rename_i hdown
      exact ⟨fun _ => hdown, fun _ => le_refl _⟩
    · rename_i hup
      exact ⟨fun h => absurd h (by omega), fun h => absurd h hup⟩
  · have hn' : (⌊m⌋ : K) + 1 ≤ n := by exact_mod_cast hn
    have hhigh : halfEven m ≤ ⌊m⌋ + 1 := by
      unfold halfEven
      split <;> omega
    constructor
    · intro _
      exact .inl (by linarith)
    · intro _
      omega

theorem lt_halfEven_iff : n < halfEven m ↔ n + 1 / 2 < m ∨ (m = n + 1 / 2 ∧ n % 2 ≠ 0) := by
  rw [← not_le, halfEven_le_iff]
  constructor
  · intro h
    rcases lt_trichotomy m (n + 1 / 2) with hlt | heq | hgt
    · exact absurd (.inl hlt) h
    · exact .inr ⟨heq, fun heven => h (.inr ⟨heq, heven⟩)⟩
    · exact .inl hgt
  · rintro (h | ⟨rfl, hodd⟩) (h' | ⟨h', heven⟩)
    · exact lt_asymm h h'
    · exact h.ne' h'
    · exact lt_irrefl _ h'
    · exact hodd heven

theorem halfEven_intCast (n : ℤ) : halfEven (n : K) = n := by
  refine le_antisymm (halfEven_le_iff.2 (.inl (by linarith))) ?_
  have h : n - 1 < halfEven (n : K) := lt_halfEven_iff.2 (.inl (by push_cast; linarith))
  omega

theorem halfEven_mono : Monotone (halfEven : K → ℤ) := by
  intro x y hxy
  rcases halfEven_le_iff.1 (le_refl (halfEven y)) with hy | ⟨hy, heven⟩
  · exact halfEven_le_iff.2 (.inl (hxy.trans_lt hy))
  · rcases hxy.eq_or_lt with rfl | hlt
    · exact le_refl _
    · exact halfEven_le_iff.2 (.inl (hlt.trans_eq hy))

/-- Rounding to a multiple of `1 / c` keeps the integer part unless it reaches the next integer. -/
theorem floor_halfEven_mul (hc : 0 < c) : ⌊(halfEven (q * c) : K) / c⌋ = ⌊q⌋ ↔ halfEven (q * c) < (⌊q⌋ + 1) * c := by
  have hc' : (0 : K) < c := Nat.cast_pos.2 hc
  rw [Int.floor_eq_iff, le_div_iff₀ hc', div_lt_iff₀ hc']
  have hlow : ⌊q⌋ * (c : ℤ) ≤ halfEven (q * c) := by
    rw [← halfEven_intCast (K := K) (⌊q⌋ * c)]
    refine halfEven_mono ?_
    push_cast
    exact mul_le_mul_of_nonneg_right (Int.floor_le q) hc'.le
  constructor
  · rintro ⟨-, h⟩
    exact_mod_cast h
  · intro h
    exact ⟨by exact_mod_cast hlow, by exact_mod_cast h⟩

/-- Rounding to a multiple of `c` keeps the integer part if that is one. -/
theorem halfEven_div_mul (hc : 2 ≤ c) : halfEven (q / c) * c = ⌊q⌋ ↔ (c : ℤ) ∣ ⌊q⌋ := by
  have hc' : (2 : K) ≤ c := by exact_mod_cast hc
  constructor
  · intro h
    exact ⟨halfEven (q / c), by rw [← h, mul_comm]⟩
  · rintro ⟨k, hk⟩
    have hfloor : (c : K) * k ≤ q := by exact_mod_cast hk ▸ Int.floor_le q
    have hnext : q < c * k + 1 := by exact_mod_cast hk ▸ Int.lt_floor_add_one q
    have heq : halfEven (q / c) = k := by
      refine le_antisymm (halfEven_le_iff.2 (.inl ?_)) ?_
      · rw [div_lt_iff₀ (by linarith)]
        nlinarith
      · have h : k - 1 < halfEven (q / c) := by
          refine lt_halfEven_iff.2 (.inl ?_)
          rw [lt_div_iff₀ (by linarith)]
          push_cast
          nlinarith
        omega
    rw [heq, hk, mul_comm]

end LeafDb
