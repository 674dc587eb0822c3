import LeafDb.Base.Rounding
import LeafDb.Sql.Value

/-!
# The double nearest to a number

`roundMag` rounds to a multiple of the last of 53 binary places. Where that place is a fraction, the integer part is
kept unless the next integer is reached; where it is not, only multiples of it are kept. No double is as large
as `2^1024 - 2^970`.
-/

namespace LeafDb

section RoundMag

variable {q : ℚ}

/-- The exponent of the last of the 53 bits of `q`. -/
def lastPlace (q : ℚ) : ℤ := max (Int.log 2 q) (-1022) - 52

/-- `q` rounded to a multiple of its last place. -/
def rounded (q : ℚ) : ℚ := halfEven (q / (2 : ℚ) ^ lastPlace q) * (2 : ℚ) ^ lastPlace q

theorem roundMag_eq (hq : q ≠ 0) : roundMag q = if rounded q < 2 ^ 1024 then some (rounded q) else none := by
  unfold roundMag
  rw [if_neg hq, rounded, halfEven_eq]
  rfl

theorem roundMag_nonneg (hq : 0 ≤ q) {m : ℚ} (h : roundMag q = some m) : 0 ≤ m := by
  rcases eq_or_ne q 0 with rfl | hne
  · obtain rfl : 0 = m := Option.some_inj.1 h
    exact le_refl _
  rw [roundMag_eq hne] at h
  split at h
  · cases h
    have hunit : (0 : ℚ) ≤ 2 ^ lastPlace q := by positivity
    have hround := halfEven_mono (div_nonneg hq hunit)
    rw [← Int.cast_zero, halfEven_intCast] at hround
    exact mul_nonneg (Int.cast_nonneg hround) hunit
  · cases h

theorem exists_intCast_pow (k : ℕ) : ∃ n : ℤ, (n : ℚ) = 2 ^ k := ⟨2 ^ k, by push_cast; rfl⟩

/-- Below 2^53 the last place is a fraction, and the rounded value stays at the integer part or reaches the next integer. -/
theorem floor_roundMag_small (hq : 0 < q) (hlt : q < 2 ^ 53) {j : ℕ} (hj : lastPlace q = -j) :
    (roundMag q).map Int.floor = some ⌊q⌋ ↔ halfEven (q * (2 ^ j : ℕ)) < (⌊q⌋ + 1) * (2 ^ j : ℕ) := by
  have hunit : q / (2 : ℚ) ^ lastPlace q = q * (2 ^ j : ℕ) := by
    rw [hj, zpow_neg, div_inv_eq_mul, zpow_natCast]
    norm_num
  have hback (h : ℚ) : h * (2 : ℚ) ^ lastPlace q = h / (2 ^ j : ℕ) := by
    rw [hj, zpow_neg, ← div_eq_mul_inv, zpow_natCast]
    norm_num
  have hpos : (0 : ℚ) < (2 ^ j : ℕ) := by positivity
  have hle : halfEven (q * (2 ^ j : ℕ)) ≤ (2 ^ 53 * 2 ^ j : ℤ) := by
    rw [← halfEven_intCast (K := ℚ) (2 ^ 53 * 2 ^ j)]
    refine halfEven_mono ?_
    push_cast
    exact mul_le_mul_of_nonneg_right hlt.le (by positivity)
  have hfits : (halfEven (q * (2 ^ j : ℕ)) : ℚ) / (2 ^ j : ℕ) < 2 ^ 1024 := by
    rw [div_lt_iff₀ hpos]
    calc (halfEven (q * (2 ^ j : ℕ)) : ℚ) ≤ 2 ^ 53 * 2 ^ j := by exact_mod_cast hle
      _ < 2 ^ 1024 * (2 ^ j : ℕ) := by
        push_cast
        gcongr
        all_goals norm_num
  rw [roundMag_eq hq.ne', rounded, hunit, hback, if_pos hfits, Option.map_some, Option.some_inj,
    floor_halfEven_mul (by positivity)]

theorem floor_roundMag_large (hq : 2 ^ 53 ≤ q) {k : ℕ} (hk : 0 < k) (hk' : lastPlace q = k) :
    (roundMag q).map Int.floor = some ⌊q⌋ ↔ (2 ^ k : ℤ) ∣ ⌊q⌋ ∧ q < 2 ^ 1024 := by
  have hpos : 0 < q := lt_of_lt_of_le (by norm_num) hq
  have hunit : (2 : ℚ) ^ lastPlace q = (2 ^ k : ℕ) := by
    rw [hk', zpow_natCast]
    norm_num
  have hround := halfEven_div_mul (q := q) (show 2 ≤ 2 ^ k from Nat.le_self_pow hk.ne' 2)
  rw [roundMag_eq hpos.ne', rounded, hunit]
  have hfloor : ⌊(halfEven (q / (2 ^ k : ℕ)) : ℚ) * (2 ^ k : ℕ)⌋ = halfEven (q / (2 ^ k : ℕ)) * (2 ^ k : ℕ) := by
    exact_mod_cast Int.floor_intCast (R := ℚ) (halfEven (q / (2 ^ k : ℕ)) * (2 ^ k : ℕ))
  have hbelow : (⌊q⌋ : ℚ) < 2 ^ 1024 ↔ q < 2 ^ 1024 := by
    obtain ⟨limit, hlimit⟩ := exists_intCast_pow 1024
    rw [← hlimit, Int.cast_lt, Int.floor_lt]
  have hdvd : (2 ^ k : ℤ) ∣ ⌊q⌋ ↔ halfEven (q / (2 ^ k : ℕ)) * (2 ^ k : ℕ) = ⌊q⌋ := by
    rw [hround]
    push_cast
    exact Iff.rfl
  rw [hdvd]
  constructor
  · intro h
    split at h
    · rename_i hfits
      rw [Option.map_some, Option.some_inj, hfloor] at h
      refine ⟨h, hbelow.1 ?_⟩
      rw [← h, Int.cast_mul, Int.cast_natCast]
      exact hfits
    · cases h
  · rintro ⟨h, hlt⟩
    have hfits : (halfEven (q / (2 ^ k : ℕ)) : ℚ) * (2 ^ k : ℕ) < 2 ^ 1024 := by
      have hlow := hbelow.2 hlt
      rwa [← h, Int.cast_mul, Int.cast_natCast] at hlow
    rw [if_pos hfits, Option.map_some, hfloor, h]

theorem pow_div_lastPlace {k : ℤ} (h : lastPlace q ≤ k) :
    (2 : ℚ) ^ k / 2 ^ lastPlace q = ((2 ^ (k - lastPlace q).toNat : ℤ) : ℚ) := by
  rw [← zpow_sub₀ two_ne_zero]
  push_cast
  rw [← zpow_natCast, Int.toNat_of_nonneg (by omega)]

theorem rounded_le {k : ℤ} (h : lastPlace q ≤ k) (hq : q ≤ 2 ^ k) : rounded q ≤ 2 ^ k := by
  have hunit : (0 : ℚ) < 2 ^ lastPlace q := by positivity
  rw [rounded, ← le_div_iff₀ hunit, pow_div_lastPlace h, Int.cast_le,
    ← halfEven_intCast (K := ℚ) (2 ^ (k - lastPlace q).toNat), ← pow_div_lastPlace h]
  exact halfEven_mono (div_le_div_of_nonneg_right hq hunit.le)

theorem le_rounded {k : ℤ} (h : lastPlace q ≤ k) (hq : 2 ^ k ≤ q) : 2 ^ k ≤ rounded q := by
  have hunit : (0 : ℚ) < 2 ^ lastPlace q := by positivity
  rw [rounded, ← div_le_iff₀ hunit, pow_div_lastPlace h, Int.cast_le,
    ← halfEven_intCast (K := ℚ) (2 ^ (k - lastPlace q).toNat), ← pow_div_lastPlace h]
  exact halfEven_mono (div_le_div_of_nonneg_right hq hunit.le)

theorem lt_two_pow_iff (hq : 0 < q) (k : ℕ) : q < 2 ^ k ↔ Int.log 2 q < k := by
  rw [← Int.lt_zpow_iff_log_lt (b := 2) one_lt_two hq, zpow_natCast, Nat.cast_two]

theorem roundMag_eq_none_iff (hq : 0 < q) : roundMag q = none ↔ 2 ^ 1024 ≤ rounded q := by
  rw [roundMag_eq hq.ne', ← not_lt]
  split <;> simp_all

theorem roundMag_eq_none_of_pos (hq : 0 < q) : roundMag q = none ↔ 2 ^ 1024 - 2 ^ 970 ≤ q := by
  have hunit : (0 : ℚ) < 2 ^ 970 := by positivity
  have h1023 : (2 : ℚ) ^ 1023 = 2 ^ 53 * 2 ^ 970 := by rw [← pow_add]
  have h1024 : (2 : ℚ) ^ 1024 = 2 ^ 54 * 2 ^ 970 := by rw [← pow_add]
  rw [roundMag_eq_none_iff hq]
  rcases lt_or_ge q (2 ^ 1024) with hlt | hge
  · have hlog := (lt_two_pow_iff hq 1024).1 hlt
    rcases lt_or_ge q (2 ^ 1023) with hsmall | hlarge
    · have hlog' := (lt_two_pow_iff hq 1023).1 hsmall
      have hle : rounded q ≤ 2 ^ ((1023 : ℕ) : ℤ) := by
        refine rounded_le ?_ ?_
        · unfold lastPlace
          omega
        · rw [zpow_natCast]
          exact hsmall.le
      rw [zpow_natCast, h1023] at hle
      rw [h1023] at hsmall
      rw [h1024]
      generalize (2 : ℚ) ^ 970 = u at hunit hsmall hle ⊢
      constructor <;> intro h <;> linarith only [h, hunit, hsmall, hle]
    · have hlog' := (lt_two_pow_iff hq 1023).not.1 (not_lt.2 hlarge)
      have hplace : lastPlace q = ((971 : ℕ) : ℤ) := by
        unfold lastPlace
        omega
      have h971 : (2 : ℚ) ^ 971 = 2 * 2 ^ 970 := pow_succ' 2 970
      have hstep : (2 : ℤ) ^ 53 - 1 < halfEven (q / 2 ^ 971) ↔ 2 ^ 1024 - 2 ^ 970 ≤ q := by
        rw [lt_halfEven_iff, h971, h1024, lt_div_iff₀ (by positivity), div_eq_iff (by positivity), le_iff_lt_or_eq]
        generalize (2 : ℚ) ^ 970 = u at *
        refine or_congr ?_ ?_
        · norm_num
          constructor <;> intro h <;> linarith
        · norm_num
          constructor <;> intro h <;> linarith
      rw [rounded, hplace, zpow_natCast, ← hstep, Int.sub_one_lt_iff, ← Int.cast_le (R := ℚ), h1024, h971]
      push_cast
      generalize (2 : ℚ) ^ 970 = u at *
      constructor <;> intro h <;> nlinarith
  · have hle : (2 : ℚ) ^ 1024 ≤ rounded q := by
      have hlog : ((1024 : ℕ) : ℤ) ≤ Int.log 2 q := not_lt.1 ((lt_two_pow_iff hq 1024).not.1 (not_lt.2 hge))
      calc (2 : ℚ) ^ 1024 = 2 ^ ((1024 : ℕ) : ℤ) := (zpow_natCast 2 1024).symm
        _ ≤ 2 ^ Int.log 2 q := zpow_le_zpow_right₀ one_le_two hlog
        _ ≤ rounded q := by
          refine le_rounded ?_ (Int.zpow_log_le_self (b := 2) one_lt_two hq)
          unfold lastPlace
          omega
    exact ⟨fun _ => (sub_le_self _ hunit.le).trans hge, fun _ => hle⟩

/-- The doubles end half a unit below 2^1024. -/
theorem roundMag_eq_none (hq : 0 ≤ q) : roundMag q = none ↔ 2 ^ 1024 - 2 ^ 970 ≤ q := by
  rcases hq.eq_or_lt with rfl | hq
  · have hlimit : (0 : ℚ) < 2 ^ 1024 - 2 ^ 970 := sub_pos.2 (pow_lt_pow_right₀ one_lt_two (by omega))
    simp only [roundMag, if_true, reduceCtorEq, false_iff, not_le]
    exact hlimit
  · exact roundMag_eq_none_of_pos hq

end RoundMag

end LeafDb
