import LeafDb.Sql.Double
import LeafDb.Sql.Interp

/-!
# Integer division (`arith_fn`, `eval_expr`)

Both evaluators divide integers as `int(l / r)`, through the double nearest to the quotient. That is the truncated
quotient unless the double reaches the next integer (`(2^54 - 1) / 2^54` gives 1), or the quotient has more than 53
significant bits (`(2^53 + 1) / 1` gives 2^53) or is beyond the doubles (`OverflowError`).
-/

namespace LeafDb

/-! ### The integer part of a rounded quotient -/

/-- `int(a / b)` is the quotient of `a` by `b`. Up to 53 bits, what `a / b` lacks to the next integer is more than half a
unit in the last place, or as much in a tie that goes down; beyond, the quotient itself has only 53 significant bits and
is no larger than a double. -/
def ExactQuotient (a b : ℕ) : Prop :=
  let bits := (a / b).size
  if bits ≤ 53 then
    b < (b - a % b) * 2 ^ (54 - bits) ∨ (b = (b - a % b) * 2 ^ (54 - bits) ∧ bits = 53 ∧ a / b % 2 = 0)
  else 2 ^ (bits - 53) ∣ a / b ∧ bits ≤ 1024

instance (a b : ℕ) : Decidable (ExactQuotient a b) :=
  inferInstanceAs (Decidable (if (a / b).size ≤ 53 then _ ∨ _ else _ ∧ _))

section Quotient

variable {a b : ℕ}

theorem floor_quotient (a b : ℕ) : ⌊(a : ℚ) / b⌋ = ((a / b : ℕ) : ℤ) := by
  rw [Rat.floor_natCast_div_natCast, Int.natCast_div]

theorem missing_eq (hb : 0 < b) : ((b - a % b : ℕ) : ℚ) = ((a / b : ℕ) + 1) * b - a := by
  have hr : a % b ≤ b := (Nat.mod_lt a hb).le
  have h : ((b * (a / b) + a % b : ℕ) : ℚ) = a := by rw [Nat.div_add_mod]
  rw [Nat.cast_sub hr]
  push_cast at h
  rw [← h]
  ring

/-- Whether rounding to multiples of `1 / c` stays below the next integer. -/
theorem halfEven_quotient_lt (hb : 0 < b) {c : ℕ} :
    halfEven ((a : ℚ) / b * c) < (((a / b : ℕ) : ℤ) + 1) * c ↔
      b < (b - a % b) * (2 * c) ∨ (b = (b - a % b) * (2 * c) ∧ (a / b + 1) * c % 2 = 1) := by
  have hb' : (0 : ℚ) < b := Nat.cast_pos.2 hb
  have hmiss := missing_eq (a := a) hb
  rw [← Int.le_sub_one_iff, halfEven_le_iff]
  generalize a / b = n at hmiss ⊢
  generalize b - a % b = d at hmiss ⊢
  refine or_congr ?_ (and_congr ?_ ?_)
  · rw [← Nat.cast_lt (α := ℚ), div_mul_eq_mul_div, div_lt_iff₀ hb']
    push_cast
    rw [hmiss]
    constructor <;> intro h <;> linarith
  · rw [← Nat.cast_inj (R := ℚ), div_mul_eq_mul_div, div_eq_iff hb'.ne']
    push_cast
    rw [hmiss]
    constructor <;> intro h <;> linarith
  · have hcast : ((n : ℤ) + 1) * c = ((n + 1) * c : ℕ) := by push_cast; ring
    rw [hcast]
    omega

/-- The last place of a quotient that is at least 1. -/
theorem lastPlace_quotient (hq : 1 ≤ a / b) : lastPlace ((a : ℚ) / b) = ((a / b).size : ℤ) - 53 := by
  have hfloor : ⌊(a : ℚ) / b⌋₊ = a / b := Nat.floor_div_eq_div a b
  have hone : (1 : ℚ) ≤ a / b := by
    have h := Nat.floor_le (a := (a : ℚ) / b) (by positivity)
    rw [hfloor] at h
    exact le_trans (by exact_mod_cast hq) h
  obtain ⟨k, hk⟩ : ∃ k, (a / b).size = k + 1 := Nat.exists_eq_succ_of_ne_zero (Nat.size_pos.2 hq).ne'
  have hlow : 2 ^ k ≤ a / b := Nat.lt_size.1 (by omega)
  have hhigh : a / b < 2 ^ (k + 1) := Nat.size_le.1 hk.le
  unfold lastPlace
  rw [Int.log_of_one_le_right 2 hone, hfloor, Nat.log_eq_of_pow_le_of_lt_pow hlow hhigh, hk]
  omega

/-- A quotient below 1/2 is not rounded to 1. -/
theorem reach_of_half {c : ℕ} (h : 2 * a < b) (hc : 0 < c) : b < (b - a % b) * (2 * c) := by
  rw [Nat.mod_eq_of_lt (by omega)]
  calc b < (b - a) * 2 := by omega
    _ ≤ (b - a) * (2 * c) := Nat.mul_le_mul_left _ (by omega)

theorem floor_roundMag_below_one (ha : 0 < a) (hlt : a < b) :
    (roundMag ((a : ℚ) / b)).map Int.floor = some ((a / b : ℕ) : ℤ) ↔ b < (b - a % b) * 2 ^ 54 := by
  have hb : 0 < b := by omega
  have hq : (0 : ℚ) < (a : ℚ) / b := div_pos (Nat.cast_pos.2 ha) (Nat.cast_pos.2 hb)
  have hone : (a : ℚ) / b < 1 := (div_lt_one (Nat.cast_pos.2 hb)).2 (Nat.cast_lt.2 hlt)
  have hlog : Int.log 2 ((a : ℚ) / b) < 0 := by
    have h := (lt_two_pow_iff hq 0).1 (by simpa using hone)
    simpa using h
  obtain ⟨j, hj⟩ : ∃ j : ℕ, lastPlace ((a : ℚ) / b) = -j := ⟨(-lastPlace ((a : ℚ) / b)).toNat, by unfold lastPlace; omega⟩
  rw [← floor_quotient, floor_roundMag_small hq (hone.trans (by norm_num)) hj, floor_quotient,
    halfEven_quotient_lt hb]
  by_cases hhalf : 2 * a < b
  · have h54 := reach_of_half (c := 2 ^ 53) hhalf (by positivity)
    exact ⟨fun _ => h54, fun _ => .inl (reach_of_half hhalf (by positivity))⟩
  · have hminus : Int.log 2 ((a : ℚ) / b) = -1 := by
      refine le_antisymm (by omega) ((Int.zpow_le_iff_le_log (b := 2) one_lt_two hq).1 ?_)
      rw [zpow_neg_one, inv_eq_one_div, Nat.cast_two, div_le_div_iff₀ two_pos (Nat.cast_pos.2 hb)]
      exact_mod_cast (by omega : 1 * b ≤ a * 2)
    obtain rfl : j = 53 := by
      unfold lastPlace at hj
      omega
    rw [Nat.div_eq_of_lt hlt]
    constructor
    · rintro (h | ⟨-, h⟩)
      · exact h
      · norm_num at h
    · exact .inl

theorem floor_roundMag_quotient (hb : 0 < b) :
    (roundMag ((a : ℚ) / b)).map Int.floor = some ((a / b : ℕ) : ℤ) ↔ ExactQuotient a b := by
  rcases Nat.eq_zero_or_pos a with rfl | ha
  · have hexact : ExactQuotient 0 b := by simp [ExactQuotient, hb]
    simp [roundMag, hexact]
  have hq : (0 : ℚ) < (a : ℚ) / b := div_pos (Nat.cast_pos.2 ha) (Nat.cast_pos.2 hb)
  rcases Nat.lt_or_ge a b with hlt | hge
  · rw [floor_roundMag_below_one ha hlt]
    simp [ExactQuotient, Nat.div_eq_of_lt hlt]
  have hone : 1 ≤ a / b := Nat.div_pos hge hb
  have hplace := lastPlace_quotient hone
  have hbits : 0 < (a / b).size := Nat.size_pos.2 hone
  have hpow (k : ℕ) : (a : ℚ) / b < 2 ^ k ↔ (a / b).size ≤ k := by
    rw [Nat.size_le, Nat.div_lt_iff_lt_mul hb, div_lt_iff₀ (Nat.cast_pos.2 hb)]
    exact_mod_cast Iff.rfl
  by_cases hsmall : (a / b).size ≤ 53
  · have hj : lastPlace ((a : ℚ) / b) = -((53 - (a / b).size : ℕ) : ℤ) := by omega
    have htie : (a / b + 1) * 2 ^ (53 - (a / b).size) % 2 = 1 ↔ (a / b).size = 53 ∧ a / b % 2 = 0 := by
      rcases hsmall.eq_or_lt with heq | hlt
      · rw [heq]
        omega
      · rw [show 53 - (a / b).size = 52 - (a / b).size + 1 by omega, pow_succ, ← mul_assoc]
        omega
    have hunit : 2 * 2 ^ (53 - (a / b).size) = 2 ^ (54 - (a / b).size) := by
      rw [← pow_succ', show 54 - (a / b).size = 53 - (a / b).size + 1 by omega]
    rw [← floor_quotient, floor_roundMag_small hq ((hpow 53).2 hsmall) hj, floor_quotient, halfEven_quotient_lt hb, htie,
      hunit]
    simp only [ExactQuotient, if_pos hsmall]
  · obtain ⟨k, hk⟩ : ∃ k, (a / b).size = 53 + k := ⟨(a / b).size - 53, by omega⟩
    have hk' : lastPlace ((a : ℚ) / b) = k := by omega
    rw [← floor_quotient, floor_roundMag_large (not_lt.1 ((hpow 53).not.2 hsmall)) (by omega) hk', floor_quotient, hpow]
    simp only [ExactQuotient, if_neg hsmall]
    rw [hk, Nat.add_sub_cancel_left]
    exact and_congr_left fun _ => by exact_mod_cast Iff.rfl

theorem exactQuotient_of_lt_pow (hlow : a / b < 2 ^ 53) (h : b < (b - a % b) * 2 ^ (54 - (a / b).size)) :
    ExactQuotient a b := by
  simp only [ExactQuotient, if_pos (Nat.size_le.2 hlow)]
  exact .inl h

/-- A quotient without remainder is exact up to 2^53. -/
theorem exactQuotient_of_dvd (hb : 0 < b) (h : b ∣ a) (hq : a / b ≤ 2 ^ 53) : ExactQuotient a b := by
  rcases hq.eq_or_lt with heq | hlt
  · have hbits : (2 ^ 53).size = 54 := Nat.size_pow
    simp only [ExactQuotient, heq, hbits]
    exact ⟨⟨2 ^ 52, rfl⟩, by omega⟩
  · refine exactQuotient_of_lt_pow hlt ?_
    rw [Nat.mod_eq_zero_of_dvd h, Nat.sub_zero]
    have hbits := Nat.size_le.2 hlt
    exact lt_mul_of_one_lt_right hb (Nat.one_lt_two_pow (by omega))

/-- A dividend of at most 53 bits is divided exactly. -/
theorem exactQuotient_of_le (hb : 0 < b) (ha : a ≤ 2 ^ 53) : ExactQuotient a b := by
  by_cases hdvd : b ∣ a
  · exact exactQuotient_of_dvd hb hdvd ((Nat.div_le_self a b).trans ha)
  have hmod := Nat.mod_lt a hb
  have hrem : 0 < a % b := Nat.pos_of_ne_zero fun h => hdvd (Nat.dvd_of_mod_eq_zero h)
  have hdiv := Nat.div_add_mod a b
  rcases Nat.lt_or_ge a b with hlt | hge
  · refine exactQuotient_of_lt_pow (by rw [Nat.div_eq_of_lt hlt]; positivity) ?_
    rw [Nat.div_eq_of_lt hlt, Nat.size_zero, Nat.mod_eq_of_lt hlt]
    omega
  have hone : 1 ≤ a / b := Nat.div_pos hge hb
  have hlow : a / b < 2 ^ 53 := by nlinarith
  have hbits := Nat.size_le.2 hlow
  obtain ⟨k, hk⟩ : ∃ k, (a / b).size = k + 1 := Nat.exists_eq_succ_of_ne_zero (Nat.size_pos.2 hone).ne'
  refine exactQuotient_of_lt_pow hlow ?_
  have hpow : b * 2 ^ k < 2 ^ (53 - k) * 2 ^ k := by
    rw [← pow_add, Nat.sub_add_cancel (by omega)]
    have hle : b * 2 ^ k ≤ b * (a / b) := Nat.mul_le_mul_left b (Nat.lt_size.1 (by omega))
    omega
  calc b < 2 ^ (53 - k) := Nat.lt_of_mul_lt_mul_right hpow
    _ = 1 * 2 ^ (54 - (a / b).size) := by rw [hk, one_mul, Nat.add_sub_add_right 53 1 k]
    _ ≤ (b - a % b) * 2 ^ (54 - (a / b).size) := Nat.mul_le_mul_right _ (by omega)

end Quotient

/-! ### Signed operands -/

/-- `q` is the quotient of `a` by `b`, truncated towards zero. -/
def Truncated (a b q : Int) : Prop := ∃ r, a = q * b + r ∧ |r| < |b| ∧ (r = 0 ∨ r.sign = a.sign)

theorem truncated_iff {a b q : Int} (hb : b ≠ 0) : Truncated a b q ↔ q = a.tdiv b := by
  constructor
  · rintro ⟨r, ha, hlt, hsign⟩
    have habs : |b| = b.natAbs := (Int.natCast_natAbs b).symm
    rw [habs, abs_lt] at hlt
    rcases le_total 0 a with hpos | hneg
    · have hr : 0 ≤ r := by
        rcases hsign with rfl | hsign
        · exact le_refl _
        · rw [← Int.sign_nonneg_iff, hsign, Int.sign_nonneg_iff]
          exact hpos
      exact ((Int.tdiv_tmod_unique (q := q) hpos hb).2 ⟨by rw [ha]; ring, hr, hlt.2⟩).1.symm
    · have hr : r ≤ 0 := by
        rcases hsign with rfl | hsign
        · exact le_refl _
        · rw [← Int.sign_nonpos_iff, hsign, Int.sign_nonpos_iff]
          exact hneg
      exact ((Int.tdiv_tmod_unique' (q := q) hneg hb).2 ⟨by rw [ha]; ring, hlt.1, hr⟩).1.symm
  · rintro rfl
    rcases le_total 0 a with hpos | hneg
    · obtain ⟨heq, hr, hlt⟩ := (Int.tdiv_tmod_unique hpos hb).1 ⟨rfl, rfl⟩
      refine ⟨a.tmod b, by linarith, by rwa [abs_of_nonneg hr, ← Int.natCast_natAbs], ?_⟩
      rcases hr.eq_or_lt with hr | hr
      · exact .inl hr.symm
      · have ha : 0 < a := lt_of_le_of_ne hpos fun h => by
          rw [← h, Int.zero_tmod] at hr
          exact lt_irrefl _ hr
        exact .inr (by rw [Int.sign_eq_one_of_pos hr, Int.sign_eq_one_of_pos ha])
    · obtain ⟨heq, hlt, hr⟩ := (Int.tdiv_tmod_unique' hneg hb).1 ⟨rfl, rfl⟩
      refine ⟨a.tmod b, by linarith, by rw [abs_of_nonpos hr, ← Int.natCast_natAbs]; omega, ?_⟩
      rcases hr.eq_or_lt with hr | hr
      · exact .inl hr
      · have ha : a < 0 := lt_of_le_of_ne hneg fun h => by
          rw [h, Int.zero_tmod] at hr
          exact lt_irrefl _ hr
        exact .inr (by rw [Int.sign_eq_neg_one_of_neg hr, Int.sign_eq_neg_one_of_neg ha])

section Divide

variable {a b : Int}

theorem neg_quotient (n m : ℕ) : -((n / m : ℕ) : Int) = if (0 : ℚ) < (n : ℚ) / m then -((n / m : ℕ) : Int) else (n / m : ℕ) := by
  split
  · rfl
  · rename_i h
    have hzero : (n : ℚ) / m = 0 := le_antisymm (not_lt.1 h) (by positivity)
    have hdiv : n / m = 0 := by
      rcases div_eq_zero_iff.1 hzero with h | h
      · rw [Nat.cast_eq_zero.1 h, Nat.zero_div]
      · rw [Nat.cast_eq_zero.1 h, Nat.div_zero]
    rw [hdiv]
    rfl

theorem tdiv_eq (a b : Int) :
    a.tdiv b = if (a : ℚ) / b < 0 then -((a.natAbs / b.natAbs : ℕ) : Int) else (a.natAbs / b.natAbs : ℕ) := by
  obtain ⟨n, hn⟩ := Int.eq_nat_or_neg a
  obtain ⟨m, hm⟩ := Int.eq_nat_or_neg b
  have hq : ¬ (n : ℚ) / m < 0 := not_lt.2 (by positivity)
  rcases hn with rfl | rfl <;> rcases hm with rfl | rfl
  all_goals
    simp only [Int.neg_tdiv, Int.tdiv_neg, Int.ofNat_tdiv, Int.natAbs_neg, Int.natAbs_natCast, Int.cast_neg,
      Int.cast_natCast, neg_div, div_neg, neg_neg, Left.neg_neg_iff]
  · rw [if_neg hq]
  · exact neg_quotient n m
  · exact neg_quotient n m
  · rw [if_neg hq]

/-- What `int(a / b)` returns. -/
theorem divide_eq (hb : b ≠ 0) : Value.divide (.int a) (.int b) =
    match roundMag ((a.natAbs : ℚ) / b.natAbs) with
    | some m => .ok (.int (if (a : ℚ) / b < 0 then -⌊m⌋ else ⌊m⌋))
    | none => .error .overflowError := by
  have habs : |(a : ℚ) / b| = (a.natAbs : ℚ) / b.natAbs := by
    rw [abs_div, Nat.cast_natAbs, Nat.cast_natAbs, Int.cast_abs, Int.cast_abs]
  have htruthy : (Value.int b).truthy = true := by simp [Value.truthy, hb]
  have hneg : (if (a : ℚ) / b = 0 then false else decide ((a : ℚ) / b < 0)) = decide ((a : ℚ) / b < 0) := by
    split
    · rename_i h
      simp [h]
    · rfl
  unfold Value.divide
  simp only [htruthy, Bool.true_eq_false, if_false, Value.intTrueDiv, PyFloat.ofRat, habs, hneg]
  cases hround : roundMag ((a.natAbs : ℚ) / b.natAbs) with
  | none => rfl
  | some m =>
    have hm : ((m.toNNRat : ℚ≥0) : ℚ) = m := Rat.coe_toNNRat m (roundMag_nonneg (by positivity) hround)
    simp [bind, Except.bind, Value.truncFloat, hm]
    rfl

theorem divide_exact (hb : b ≠ 0) :
    Value.divide (.int a) (.int b) = .ok (.int (a.tdiv b)) ↔ ExactQuotient a.natAbs b.natAbs := by
  rw [← floor_roundMag_quotient (Int.natAbs_pos.2 hb), divide_eq hb, tdiv_eq]
  cases roundMag ((a.natAbs : ℚ) / b.natAbs) with
  | none => simp
  | some m =>
    simp only [Option.map_some, Option.some_inj, Except.ok.injEq, Value.int.injEq]
    split
    · exact neg_inj
    · exact Iff.rfl

end Divide

/-! ### The two evaluators -/

section Evaluators

variable {lib : PyLib} {scope : Scope} {l r : Expr} {parts : Parts} {env : AggEnv} {a b : Int}

theorem compiled_div {aggAliases : List (String × Nat)} {allowAgg : Bool} {lfn rfn : Closure}
    (hl : compileExpr lib scope aggAliases allowAgg l = .ok lfn)
    (hr : compileExpr lib scope aggAliases allowAgg r = .ok rfn) (hla : lfn parts env = .ok (.int a))
    (hrb : rfn parts env = .ok (.int b)) :
    ∃ fn, compileExpr lib scope aggAliases allowAgg (.binop .div l r) = .ok fn ∧
      fn parts env = Value.divide (.int a) (.int b) := by
  refine ⟨binopFn .div lfn rfn, by rw [compileExpr, hl, hr]; rfl, ?_⟩
  simp only [binopFn, strictFn, hla, hrb, numericOp, Value.isNumber]
  rfl

theorem interpreted_div (hl : evalExpr lib scope parts env l = .ok (.int a))
    (hr : evalExpr lib scope parts env r = .ok (.int b)) :
    evalExpr lib scope parts env (.binop .div l r) = Value.divide (.int a) (.int b) := by
  rw [evalExpr, hl, hr]
  rfl

end Evaluators

/-- Both evaluators divide `a` by `b` as integers, whatever expressions the two come from. -/
structure DividesExactly (lib : PyLib) (a b : Int) : Prop where
  compiled : ∀ (scope : Scope) (aggAliases : List (String × Nat)) (allowAgg : Bool) (l r : Expr) (lfn rfn : Closure)
    (parts : Parts) (env : AggEnv), compileExpr lib scope aggAliases allowAgg l = .ok lfn →
    compileExpr lib scope aggAliases allowAgg r = .ok rfn → lfn parts env = .ok (.int a) → rfn parts env = .ok (.int b) →
    ∃ fn q, compileExpr lib scope aggAliases allowAgg (.binop .div l r) = .ok fn ∧ fn parts env = .ok (.int q) ∧
      Truncated a b q
  interpreted : ∀ (scope : Scope) (l r : Expr) (ctx : Parts) (env : AggEnv), evalExpr lib scope ctx env l = .ok (.int a) →
    evalExpr lib scope ctx env r = .ok (.int b) →
    ∃ q, evalExpr lib scope ctx env (.binop .div l r) = .ok (.int q) ∧ Truncated a b q

theorem divide_truncated {a b : Int} (hb : b ≠ 0) :
    (∃ q, Value.divide (.int a) (.int b) = .ok (.int q) ∧ Truncated a b q) ↔ ExactQuotient a.natAbs b.natAbs := by
  rw [← divide_exact hb]
  constructor
  · rintro ⟨q, hq, htrunc⟩
    rw [hq, (truncated_iff hb).1 htrunc]
  · intro h
    exact ⟨_, h, (truncated_iff hb).2 rfl⟩

theorem DividesExactly.exactQuotient {lib : PyLib} {a b : Int} (hb : b ≠ 0) (h : DividesExactly lib a b) :
    ExactQuotient a.natAbs b.natAbs := by
  obtain ⟨q, hq, htrunc⟩ := h.interpreted .empty (.literal (.int a)) (.literal (.int b)) [] none rfl rfl
  rw [interpreted_div rfl rfl] at hq
  exact (divide_truncated hb).1 ⟨q, hq, htrunc⟩

theorem DividesExactly.of_exactQuotient (lib : PyLib) {a b : Int} (hb : b ≠ 0) (h : ExactQuotient a.natAbs b.natAbs) :
    DividesExactly lib a b := by
  obtain ⟨q, hq, htrunc⟩ := (divide_truncated hb).2 h
  refine ⟨?_, ?_⟩
  · intro scope aggAliases allowAgg l r lfn rfn parts env hl hr hla hrb
    obtain ⟨fn, hfn, heval⟩ := compiled_div hl hr hla hrb
    exact ⟨fn, q, hfn, heval.trans hq, htrunc⟩
  · intro scope l r ctx env hl hr
    exact ⟨q, (interpreted_div hl hr).trans hq, htrunc⟩

/-- A dividend of at most 53 bits is safe with every divisor. -/
theorem DividesExactly.of_natAbs_le (lib : PyLib) {a b : Int} (hb : b ≠ 0) (ha : a.natAbs ≤ 2 ^ 53) :
    DividesExactly lib a b :=
  .of_exactQuotient lib hb (exactQuotient_of_le (Int.natAbs_pos.2 hb) ha)

/-- Both evaluators divide two integers exactly if and only if the quotient is one that a double keeps. -/
theorem dividesExactly_iff (lib : PyLib) {a b : Int} (hb : b ≠ 0) :
    DividesExactly lib a b ↔ ExactQuotient a.natAbs b.natAbs :=
  ⟨fun h => h.exactQuotient hb, fun h => .of_exactQuotient lib hb h⟩

theorem dividesExactly_iff_negSeven :
    DividesExactly ⟨fun _ => "", fun c d => decide (c = d)⟩ (-7) 2 ↔ ExactQuotient (-7 : Int).natAbs (2 : Int).natAbs :=
  dividesExactly_iff _ (by decide)

/-- 9007199254740993 is 2^53 + 1. -/
theorem not_dividesExactly : ¬ ∀ (lib : PyLib) (a b : Int), b ≠ 0 → DividesExactly lib a b := by
  intro h
  have hexact := (h ⟨fun _ => "", fun c d => decide (c = d)⟩ 9007199254740993 1 (by decide)).exactQuotient (by decide)
  exact absurd hexact (by decide +kernel)

example : ¬ ExactQuotient (2 ^ 54 - 1) (2 ^ 54) := by decide +kernel

end LeafDb
