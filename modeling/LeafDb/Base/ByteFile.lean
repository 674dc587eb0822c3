import Mathlib

/-!
# Byte strings, big-endian integers and random-access files

`packBE` and `readBE` are the two directions of an unsigned big-endian field of fixed width.
A file is the list of its bytes; `writeAt` is a seek followed by a write (a gap past the end of the
file is filled with zeros), `readAt` a seek followed by a read (short at the end of the file).
Reading with missing bytes taken as zero (`List.getD _ _ 0`) is what the lemmas about files are
stated with: it is total and `writeAt` changes it exactly on the written range.
-/

namespace LeafDb

abbrev Bytes := List UInt8

/-! ### Big-endian fields -/

/-- The low `w` bytes of `v`, most significant first. -/
def packBE : Nat → Nat → Bytes
  | 0, _ => []
  | w + 1, v => packBE w (v / 256) ++ [UInt8.ofNat v]

/-- Reads `w` bytes on top of the value `acc` already read; `none` when the input is too short. -/
def readBE : Nat → Nat → Bytes → Option (Nat × Bytes)
  | 0, acc, buf => some (acc, buf)
  | w + 1, acc, b :: buf => readBE w (acc * 256 + b.toNat) buf
  | _ + 1, _, [] => none

@[simp] theorem length_packBE (w v : Nat) : (packBE w v).length = w := by
  induction w generalizing v with
  | zero => rfl
  | succ w ih => simp [packBE, ih]

theorem readBE_append (w w' acc : Nat) (buf : Bytes) :
    readBE (w + w') acc buf = (readBE w acc buf).bind fun p => readBE w' p.1 p.2 := by
  induction w generalizing acc buf with
  | zero => simp [readBE]
  | succ w ih =>
    rw [Nat.succ_add]
    cases buf with
    | nil => simp [readBE]
    | cons b buf => simp only [readBE]; exact ih _ _

theorem readBE_packBE (w v acc : Nat) (rest : Bytes) (hv : v < 256 ^ w) :
    readBE w acc (packBE w v ++ rest) = some (acc * 256 ^ w + v, rest) := by
  induction w generalizing v rest with
  | zero =>
    obtain rfl : v = 0 := by simpa using hv
    simp [packBE, readBE]
  | succ w ih =>
    have hv' : v / 256 < 256 ^ w := by
      rw [Nat.div_lt_iff_lt_mul (by norm_num)]; rwa [pow_succ] at hv
    rw [readBE_append, packBE, List.append_assoc, ih _ _ hv']
    simp only [Option.bind_some, List.cons_append, List.nil_append, readBE, UInt8.toNat_ofNat']
    have hsum : (acc * 256 ^ w + v / 256) * 256 + v % 256 = acc * 256 ^ (w + 1) + v := by
      calc (acc * 256 ^ w + v / 256) * 256 + v % 256
          = acc * 256 ^ (w + 1) + (256 * (v / 256) + v % 256) := by ring
        _ = acc * 256 ^ (w + 1) + v := by rw [Nat.div_add_mod]
    simpa using hsum

theorem readBE_isSome (w acc : Nat) (buf : Bytes) (h : w ≤ buf.length) :
    ∃ v, readBE w acc buf = some (v, buf.drop w) := by
  induction w generalizing acc buf with
  | zero => exact ⟨acc, by simp [readBE]⟩
  | succ w ih =>
    cases buf with
    | nil => simp at h
    | cons b buf => simpa [readBE] using ih _ buf (by simpa using h)

theorem readBE_append_left {w acc v : Nat} {buf buf' : Bytes} (h : readBE w acc buf = some (v, buf')) (rest : Bytes) :
    readBE w acc (buf ++ rest) = some (v, buf' ++ rest) := by
  induction w generalizing acc buf with
  | zero =>
    simp only [readBE, Option.some.injEq, Prod.mk.injEq] at h ⊢
    exact ⟨h.1, by rw [h.2]⟩
  | succ w ih =>
    cases buf with
    | nil => cases h
    | cons b buf => exact ih h

theorem readBE_eq_none (w acc : Nat) (buf : Bytes) (h : buf.length < w) : readBE w acc buf = none := by
  induction w generalizing acc buf with
  | zero => simp at h
  | succ w ih =>
    cases buf with
    | nil => rfl
    | cons b buf => simpa [readBE] using ih _ buf (by simpa using h)

/-! ### Padding -/

/-- `buf` followed by zeros up to `size` bytes. -/
def padTo (size : Nat) (buf : Bytes) : Bytes := buf ++ List.replicate (size - buf.length) 0

theorem length_padTo {size : Nat} {buf : Bytes} (h : buf.length ≤ size) : (padTo size buf).length = size := by
  simp [padTo]; omega

theorem getD_padTo (size : Nat) (buf : Bytes) (i : Nat) : (padTo size buf).getD i 0 = buf.getD i 0 := by
  simp only [padTo, List.getD_eq_getElem?_getD, List.getElem?_append, List.getElem?_replicate]
  split
  · rfl
  · rename_i h
    rw [List.getElem?_eq_none (by omega : buf.length ≤ i)]
    split <;> rfl

/-- A byte string is determined by its length and its bytes read with zeros beyond the end. -/
theorem ext_getD {a b : Bytes} (hlen : a.length = b.length) (h : ∀ i, a.getD i 0 = b.getD i 0) : a = b := by
  refine List.ext_getElem hlen fun i ha hb => ?_
  simpa [List.getD_eq_getElem?_getD, ha, hb] using h i

/-! ### Files -/

/-- `f.seek(off); f.read(len)`. -/
def readAt (f : Bytes) (off len : Nat) : Bytes := (f.drop off).take len

/-- `f.seek(off); f.write(data)`. -/
def writeAt (f : Bytes) (off : Nat) (data : Bytes) : Bytes :=
  if data.isEmpty then f
  else f.take off ++ List.replicate (off - f.length) 0 ++ data ++ f.drop (off + data.length)

theorem length_readAt_le (f : Bytes) (off len : Nat) : (readAt f off len).length ≤ len := by
  simp [readAt]

theorem getD_readAt (f : Bytes) (off len i : Nat) :
    (readAt f off len).getD i 0 = if i < len then f.getD (off + i) 0 else 0 := by
  simp only [readAt, List.getD_eq_getElem?_getD, List.getElem?_take, List.getElem?_drop]
  split <;> simp

theorem length_writeAt (f : Bytes) (off : Nat) (data : Bytes) (h : data ≠ []) :
    (writeAt f off data).length = max f.length (off + data.length) := by
  have : data.isEmpty = false := by cases data <;> simp_all
  simp [writeAt, this]; omega

theorem getD_writeAt (f : Bytes) (off : Nat) (data : Bytes) (i : Nat) :
    (writeAt f off data).getD i 0 =
      if off ≤ i ∧ i < off + data.length then data.getD (i - off) 0 else f.getD i 0 := by
  unfold writeAt
  by_cases hd : data = []
  · subst hd; simp
  have hne : data.isEmpty = false := by cases data <;> simp_all
  simp only [hne, Bool.false_eq_true, if_false, List.getD_eq_getElem?_getD]
  by_cases h1 : i < off
  · rw [if_neg (by omega), List.append_assoc, List.append_assoc, List.getElem?_append]
    simp only [List.length_take, List.getElem?_take]
    by_cases h2 : i < f.length
    · rw [if_pos (by omega), if_pos h1]
    · rw [if_neg (by omega), List.getElem?_append, if_pos (by simp; omega), List.getElem?_replicate,
        if_pos (by omega), List.getElem?_eq_none (by omega : f.length ≤ i)]
      rfl
  · have hlen : (f.take off ++ List.replicate (off - f.length) (0 : UInt8)).length = off := by simp; omega
    rw [List.append_assoc, List.getElem?_append, if_neg (by omega), hlen, List.getElem?_append]
    by_cases h2 : i - off < data.length
    · rw [if_pos h2, if_pos (by omega)]
    · rw [if_neg h2, if_neg (by omega), List.getElem?_drop]
      congr 2; omega

end LeafDb
