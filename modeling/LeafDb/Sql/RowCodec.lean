import LeafDb.Base.Result
import LeafDb.NodeCodec
import LeafDb.Sql.Expr

/-!
# Rows as bytes (`rows.py`)

A row is a null bitmap and its other values one after the other. `decodeRow_encodeRow`: a row that was
encoded is decoded to itself, whatever follows it in the buffer.
-/

namespace LeafDb

/-! ### Doubles -/

namespace PyFloat

/-- The bits of a double; `none` for a rational that is no double. A normal significand is `k` with
`2 ^ 52 ≤ k`, whose leading bit carries into the exponent field. -/
def bits : PyFloat → Option Nat
  | nan => some (2047 * 2 ^ 52 + 2 ^ 51)
  | inf n => some (n.toNat * 2 ^ 63 + 2047 * 2 ^ 52)
  | fin n m =>
    if m = 0 then some (n.toNat * 2 ^ 63)
    else
      let e := max (Int.log 2 m) (-1022)
      let k := m / 2 ^ (e - 52)
      if k.den = 1 ∧ e ≤ 1023 then some (n.toNat * 2 ^ 63 + (e + 1022).toNat * 2 ^ 52 + k.num) else none

def ofBits (b : Nat) : PyFloat :=
  let neg := decide (b / 2 ^ 63 = 1)
  let e : ℕ := b / 2 ^ 52 % 2 ^ 11
  let frac : ℕ := b % 2 ^ 52
  if e = 2047 then if frac = 0 then inf neg else nan
  else if e = 0 then fin neg ((frac : ℚ≥0) * 2 ^ (-1074 : ℤ))
  else fin neg (((2 ^ 52 + frac : ℕ) : ℚ≥0) * 2 ^ ((e : ℤ) - 1075))

end PyFloat

/-- `struct.Struct(">d").pack` of a float. -/
def packF64 (f : PyFloat) : Except PyError Bytes :=
  match f.bits with
  | some b => .ok (packBE 8 b)
  | none => .error .structError

/-- `pack` of an `int`: one that is too large for a float raises as well. -/
def packIntF64 (i : Int) : Except PyError Bytes :=
  match Value.intToFloat i with
  | .ok f => packF64 f
  | .error _ => .error .structError

/-! ### The code -/

/-- `coerce_value`. -/
def coerceValue : ColType → Value → Except PyError Value
  | _, .none => .ok .none
  | _, .bool _ => .error .typeError
  | .int, .float f => if Value.isIntegral f then do return .int (← Value.truncFloat f) else .error .typeError
  | .int, .int i => .ok (.int i)
  | .float, .int i => do return .float (← Value.intToFloat i)
  | .float, .float f => .ok (.float f)
  | .text, .str s => .ok (.str s)
  | _, _ => .error .typeError

def utf8 (s : String) : Bytes := s.toUTF8.data.toList

/-- The bytes of one value that is not `None`. `struct` takes a `bool` for a number and an `int` for a
float. -/
def encodeValue : ColType → Value → Except PyError Bytes
  | .int, .int i => if IsI64 i then .ok (packI64 i) else .error .structError
  | .int, .bool b => .ok (packI64 b.toNat)
  | .int, _ => .error .structError
  | .float, .float f => packF64 f
  | .float, .int i => packIntF64 i
  | .float, .bool b => packIntF64 b.toNat
  | .float, _ => .error .structError
  | .text, .str s =>
    if (utf8 s).length ≤ 0xFFFF then .ok (packBE 2 (utf8 s).length ++ utf8 s) else .error .valueError
  | .text, _ => .error .attributeError

def encodeFields : List ColType → List Value → Except PyError Bytes
  | t :: ts, v :: vs =>
    if v = .none then encodeFields ts vs else do return (← encodeValue t v) ++ (← encodeFields ts vs)
  | _, _ => .ok []

/-- `nulls`: bit `i` is set when value `i` is `None`. -/
def nullBits : List Value → Nat
  | [] => 0
  | v :: vs => 2 * nullBits vs + if v = .none then 1 else 0

/-- `encode_row`. -/
def encodeRow (types : List ColType) (values : List Value) : Except PyError Bytes := do
  if values.length ≠ types.length then throw .valueError
  let body ← encodeFields types values
  if nullBits values < 2 ^ 32 then return packBE 4 (nullBits values) ++ body else throw .structError

/-- One value that is not `None`, and what follows it. A text that the buffer cuts off is shortened. -/
def decodeValue (t : ColType) (buf : Bytes) : Except PyError (Value × Bytes) :=
  match t with
  | .int =>
    match unpackI64 buf with
    | some (i, buf) => .ok (.int i, buf)
    | none => .error .structError
  | .float =>
    match readBE 8 0 buf with
    | some (b, buf) => .ok (.float (.ofBits b), buf)
    | none => .error .structError
  | .text =>
    match readBE 2 0 buf with
    | some (n, buf) =>
      match String.fromUTF8? ⟨(buf.take n).toArray⟩ with
      | some s => .ok (.str s, buf.drop n)
      | none => .error .unicodeError
    | none => .error .structError

def decodeFields (nulls : Nat) : Nat → List ColType → Bytes → Except PyError Row
  | _, [], _ => .ok []
  | i, t :: ts, buf =>
    if nulls.testBit i then do return .none :: (← decodeFields nulls (i + 1) ts buf)
    else do
      let (v, buf) ← decodeValue t buf
      return v :: (← decodeFields nulls (i + 1) ts buf)

/-- `decode_row`. -/
def decodeRow (types : List ColType) (buf : Bytes) : Except PyError Row :=
  match readBE 4 0 buf with
  | some (nulls, buf) => decodeFields nulls 0 types buf
  | none => .error .structError

/-! ### Round trip -/

/-- The values a column of the type holds. -/
def HasType : ColType → Value → Prop
  | _, .none => True
  | .int, .int _ => True
  | .float, .float _ => True
  | .text, .str _ => True
  | _, _ => False

theorem hasType_coerceValue {t : ColType} {v w : Value} (h : coerceValue t v = .ok w) : HasType t w := by
  unfold coerceValue at h
  split at h
  · cases h
    rcases t <;> trivial
  · cases h
  · split at h
    · obtain ⟨i, -, h⟩ := do_eq_ok.1 h
      cases h
      trivial
    · cases h
  · cases h
    trivial
  · obtain ⟨f, -, h⟩ := do_eq_ok.1 h
    cases h
    trivial
  · cases h
    trivial
  · cases h
    trivial
  · cases h

namespace PyFloat

/-- The significand that `bits` computes, and its scale. -/
theorem significand {m : ℚ≥0} (hm : m ≠ 0) {e : ℤ} (he : e = max (Int.log 2 m) (-1022)) :
    m / 2 ^ (e - 52) < 2 ^ 53 ∧ (-1022 < e → 2 ^ 52 ≤ m / 2 ^ (e - 52)) := by
  have hpow : (0 : ℚ≥0) < 2 ^ (e - 52) := by positivity
  constructor
  · rw [div_lt_iff₀ hpow, ← zpow_natCast, ← zpow_add₀ two_ne_zero]
    have hlt : m < 2 ^ (Int.log 2 m + 1) := by exact_mod_cast Int.lt_zpow_succ_log_self one_lt_two m
    refine hlt.trans_le (zpow_le_zpow_right₀ one_le_two ?_)
    push_cast
    omega
  · intro hgt
    rw [le_div_iff₀ hpow, ← zpow_natCast, ← zpow_add₀ two_ne_zero]
    have hle : (2 : ℚ≥0) ^ Int.log 2 m ≤ m := by
      exact_mod_cast Int.zpow_log_le_self one_lt_two (pos_iff_ne_zero.2 hm)
    refine (zpow_le_zpow_right₀ one_le_two ?_).trans hle
    push_cast
    omega

/-- The fields of a bit pattern put together from its fields. -/
theorem fields {s e frac : Nat} (he : e < 2 ^ 11) (hf : frac < 2 ^ 52) :
    let b := s * 2 ^ 63 + e * 2 ^ 52 + frac
    b / 2 ^ 63 = s ∧ b / 2 ^ 52 % 2 ^ 11 = e ∧ b % 2 ^ 52 = frac := by
  simp only
  omega

theorem ofBits_bits {f : PyFloat} {b : Nat} (h : f.bits = some b) : b < 256 ^ 8 ∧ ofBits b = f := by
  have hsign : ∀ n : Bool, n.toNat ≤ 1 ∧ decide (n.toNat = 1) = n := by decide
  rcases f with _ | n | ⟨n, m⟩
  · cases h
    exact ⟨by norm_num, by norm_num [ofBits]⟩
  · cases h
    rcases n <;> exact ⟨by norm_num, by norm_num [ofBits]⟩
  · obtain ⟨hn, hn'⟩ := hsign n
    rw [bits] at h
    split at h
    · rename_i hm
      cases h
      obtain ⟨h1, h2, h3⟩ := @fields n.toNat 0 0 (by norm_num) (by norm_num)
      simp only [Nat.zero_mul, Nat.add_zero] at h1 h2 h3
      refine ⟨by omega, ?_⟩
      rw [ofBits, h1, h2, h3, hn']
      simp [hm]
    · rename_i hm
      simp only at h
      generalize he : max (Int.log 2 m) (-1022) = e at h
      obtain ⟨hlt, hge⟩ := significand hm he.symm
      generalize hk : m / 2 ^ (e - 52) = k at h hlt hge
      split at h
      swap
      · cases h
      rename_i hden
      obtain ⟨hden, hemax⟩ := hden
      cases h
      have hkn : k = (k.num : ℚ≥0) := by
        conv_lhs => rw [← NNRat.num_div_den k, hden]
        simp
      have hmk : m = k.num * 2 ^ (e - 52) := by
        rw [← hkn, ← hk, div_mul_cancel₀]
        positivity
      have hlt' : k.num < 2 ^ 53 := by
        rw [hkn] at hlt
        exact_mod_cast hlt
      have hemin : -1022 ≤ e := he ▸ le_max_right _ _
      generalize k.num = kn at hmk hlt' hkn
      by_cases hnorm : 2 ^ 52 ≤ kn
      · have hE : (e + 1022).toNat * 2 ^ 52 + kn = (e + 1023).toNat * 2 ^ 52 + (kn - 2 ^ 52) := by omega
        obtain ⟨h1, h2, h3⟩ := @fields n.toNat (e + 1023).toNat (kn - 2 ^ 52) (by omega) (by omega)
        rw [Nat.add_assoc, hE, ← Nat.add_assoc]
        refine ⟨by omega, ?_⟩
        have hfrac : 2 ^ 52 + (kn - 2 ^ 52) = kn := by omega
        have hexp : ((e + 1023).toNat : ℤ) - 1075 = e - 52 := by omega
        rw [ofBits, h1, h2, h3, hn', if_neg (by omega), if_neg (by omega), hmk, hfrac, hexp]
      · have he' : e = -1022 := by
          by_contra hne
          have := hge (by omega)
          rw [hkn] at this
          exact hnorm (by exact_mod_cast this)
        subst he'
        obtain ⟨h1, h2, h3⟩ := @fields n.toNat 0 kn (by norm_num) (by omega)
        simp only [Nat.zero_mul, Nat.add_zero] at h1 h2 h3
        simp only [Int.reduceNeg, neg_add_cancel, Int.toNat_zero, Nat.zero_mul, Nat.add_zero]
        refine ⟨by omega, ?_⟩
        rw [ofBits, h1, h2, h3, hn', if_neg (by omega), if_pos rfl, hmk]
        norm_num

end PyFloat

theorem fromUTF8_utf8 (s : String) : String.fromUTF8? ⟨(utf8 s).toArray⟩ = some s := by
  have h : (⟨(utf8 s).toArray⟩ : ByteArray) = s.toByteArray := by simp [utf8]
  rw [h, String.fromUTF8?, dif_pos s.isValidUTF8]
  rfl

theorem decodeValue_encodeValue {t : ColType} {v : Value} {blob : Bytes} (hv : HasType t v) (hn : v ≠ .none)
    (h : encodeValue t v = .ok blob) (rest : Bytes) : decodeValue t (blob ++ rest) = .ok (v, rest) := by
  rcases t <;> rcases v with _ | b | i | f | s <;> first | exact absurd rfl hn | cases hv
  · rw [encodeValue] at h
    split at h
    · rename_i hi
      cases h
      simp [decodeValue, unpackI64_packI64 hi]
    · cases h
  · rw [encodeValue, packF64] at h
    split at h
    · rename_i b hb
      cases h
      obtain ⟨hlt, hf⟩ := PyFloat.ofBits_bits hb
      simp [decodeValue, readBE_packBE _ _ _ _ hlt, hf]
    · cases h
  · rw [encodeValue] at h
    split at h
    · rename_i hl
      cases h
      simp [decodeValue, readBE_packBE 2 (utf8 s).length 0 _ (by omega), fromUTF8_utf8]
    · cases h

theorem testBit_nullBits {vs : List Value} {i : Nat} {v : Value} (h : vs[i]? = some v) :
    (nullBits vs).testBit i = decide (v = .none) := by
  induction vs generalizing i with
  | nil => simp at h
  | cons w vs ih =>
    rcases i with _ | i
    · obtain rfl : w = v := by simpa using h
      rw [nullBits, Nat.testBit_zero]
      split <;> simp_all
    · rw [nullBits, Nat.testBit_succ, ← ih (by simpa using h)]
      congr 1
      split <;> omega

theorem decodeFields_encodeFields {nulls i : Nat} {types : List ColType} {row : Row} {blob : Bytes}
    (hrow : List.Forall₂ HasType types row) (hn : ∀ j v, row[j]? = some v → nulls.testBit (i + j) = decide (v = .none))
    (h : encodeFields types row = .ok blob) (rest : Bytes) :
    decodeFields nulls i types (blob ++ rest) = .ok row := by
  induction hrow generalizing i blob with
  | nil => rfl
  | @cons t v ts vs hv _ ih =>
    have hhead := hn 0 v rfl
    rw [Nat.add_zero] at hhead
    have htail : ∀ j w, vs[j]? = some w → nulls.testBit (i + 1 + j) = decide (w = .none) := by
      intro j w hw
      rw [Nat.add_assoc, Nat.add_comm 1 j]
      exact hn (j + 1) w (by simpa using hw)
    rw [encodeFields] at h
    split at h
    · rename_i hnone
      rw [decodeFields, if_pos (by simp [hhead, hnone]), ih htail h, hnone]
      rfl
    · rename_i hnone
      obtain ⟨b, hb, h⟩ := do_eq_ok.1 h
      obtain ⟨b', hb', h⟩ := do_eq_ok.1 h
      cases h
      rw [decodeFields, if_neg (by simp [hhead, hnone]), List.append_assoc, decodeValue_encodeValue hv hnone hb]
      simp only [bind, Except.bind]
      rw [ih htail hb']
      rfl

theorem decodeRow_encodeRow {types : List ColType} {row : Row} {blob : Bytes} (hrow : List.Forall₂ HasType types row)
    (h : encodeRow types row = .ok blob) (rest : Bytes) : decodeRow types (blob ++ rest) = .ok row := by
  rw [encodeRow, if_neg (by simp [hrow.length_eq])] at h
  obtain ⟨-, -, h⟩ := do_eq_ok.1 h
  obtain ⟨body, hbody, h⟩ := do_eq_ok.1 h
  split at h
  · rename_i hlt
    cases h
    rw [decodeRow, List.append_assoc, readBE_packBE _ _ _ _ (by omega)]
    exact decodeFields_encodeFields hrow (fun j v hv => by rw [Nat.zero_add]; simpa using testBit_nullBits hv) hbody rest
  · cases h

/-! ### Which rows the codec takes -/

/-- The values a column of the type can hold in eight bytes, or as a text of at most 65535 bytes. -/
def Storable : ColType → Value → Prop
  | _, .none => True
  | .int, .int i => IsI64 i
  | .float, .float f => f.bits.isSome
  | .text, .str s => (utf8 s).length ≤ 0xFFFF
  | _, _ => False

/-- The row is encoded, and decoded to itself whatever follows it. -/
def RoundTrips (types : List ColType) (row : Row) : Prop :=
  ∃ blob, encodeRow types row = .ok blob ∧ ∀ rest, decodeRow types (blob ++ rest) = .ok row

theorem Storable.hasType {t : ColType} {v : Value} (h : Storable t v) : HasType t v := by
  rcases t <;> rcases v <;> trivial

theorem encodeValue_of_storable {t : ColType} {v : Value} (h : Storable t v) (hn : v ≠ .none) :
    ∃ blob, encodeValue t v = .ok blob := by
  rcases t <;> rcases v with _ | b | i | f | s <;> first | exact absurd rfl hn | exact h.elim | skip
  · exact ⟨_, if_pos h⟩
  · obtain ⟨b, hb⟩ := Option.isSome_iff_exists.1 h
    exact ⟨packBE 8 b, by rw [encodeValue, packF64, hb]⟩
  · exact ⟨_, if_pos h⟩

theorem encodeFields_of_storable {types : List ColType} {row : Row} (h : List.Forall₂ Storable types row) :
    ∃ body, encodeFields types row = .ok body := by
  induction h with
  | nil => exact ⟨[], rfl⟩
  | @cons t v ts vs hv _ ih =>
    obtain ⟨body, hbody⟩ := ih
    rw [encodeFields]
    split
    · exact ⟨body, hbody⟩
    · rename_i hn
      obtain ⟨blob, hblob⟩ := encodeValue_of_storable hv hn
      exact ⟨blob ++ body, by rw [hblob, hbody]; rfl⟩

theorem nullBits_lt {vs : List Value} {n : Nat} : nullBits vs < 2 ^ n ↔ ∀ v ∈ vs.drop n, v ≠ .none := by
  induction vs generalizing n with
  | nil => simp [nullBits]
  | cons v vs ih =>
    rw [nullBits]
    rcases n with _ | n
    · have := @ih 0
      rw [List.drop_zero] at this ⊢
      rw [List.forall_mem_cons, ← this]
      split <;> simp_all
    · rw [List.drop_succ_cons, ← ih, pow_succ]
      split <;> omega

/-- The bitmap has 32 bits: a row is encoded when no value after the 32nd is `None`. -/
theorem roundTrips_iff {types : List ColType} {row : Row} (h : List.Forall₂ Storable types row) :
    RoundTrips types row ↔ ∀ v ∈ row.drop 32, v ≠ .none := by
  obtain ⟨body, hbody⟩ := encodeFields_of_storable h
  have henc : encodeRow types row =
      if nullBits row < 2 ^ 32 then .ok (packBE 4 (nullBits row) ++ body) else .error .structError := by
    rw [encodeRow, if_neg (by simp [h.length_eq]), hbody]
    rfl
  rw [← nullBits_lt]
  constructor
  · rintro ⟨blob, hblob, -⟩
    rw [henc] at hblob
    split at hblob
    · assumption
    · cases hblob
  · intro hlt
    rw [if_pos hlt] at henc
    exact ⟨_, henc, decodeRow_encodeRow (h.imp fun _ _ => Storable.hasType) henc⟩

/-- A row of an INT and a TEXT column. -/
theorem roundTrips_two : RoundTrips [.int, .text] [.int (-1), .none] ↔ ∀ v ∈ [Value.int (-1), .none].drop 32, v ≠ .none :=
  roundTrips_iff (.cons ⟨by decide, by decide⟩ (.cons trivial .nil))

/-- A row of 33 INT columns with nothing but `None`. -/
theorem not_roundTrips_nulls :
    ¬∀ types row, List.Forall₂ Storable types row → RoundTrips types row := by
  intro hall
  have hrow : ∀ n, List.Forall₂ Storable (List.replicate n .int) (List.replicate n .none) := by
    intro n
    induction n with
    | zero => exact .nil
    | succ n ih => exact .cons trivial ih
  obtain ⟨blob, hblob, -⟩ := hall _ _ (hrow 33)
  have henc : encodeRow (List.replicate 33 .int) (List.replicate 33 .none) = .error .structError := rfl
  rw [henc] at hblob
  cases hblob

end LeafDb
