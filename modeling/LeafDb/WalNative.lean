import LeafDb.WalRecovery

/-!
# Recovery by the native engine (`core.cpp`)

`wal_recover` reads the frames of the log as `recover` does. It keeps the pages of a batch in a `std::map`,
extends the data file before each page, and counts the batches in a `uint32_t`. On a log of batches with a
torn tail both leave the same data file (`Clean.replay`); the counts agree modulo `2 ^ 32`.
-/

namespace LeafDb

/-! ### The two ways to compute a CRC -/

theorem crc32Bit_toBitVec (c : UInt32) :
    (crc32Bit c).toBitVec = c.toBitVec >>> 1 ^^^ if c.toBitVec.getLsbD 0 then 0xEDB88320#32 else 0#32 := by
  have hodd : c &&& 1 = 1 ↔ c.toBitVec.getLsbD 0 = true := by
    rw [← UInt32.toNat_inj, UInt32.toNat_and, BitVec.getLsbD, UInt32.toNat_toBitVec]
    simp [Nat.and_one_is_mod, Nat.testBit_zero]
  unfold crc32Bit
  by_cases hc : c &&& 1 = 1
  · rw [if_pos hc, if_pos (hodd.1 hc)]; rfl
  · rw [if_neg hc, if_neg (fun h => hc (hodd.2 h)), BitVec.xor_zero]; rfl

theorem crc32Bit_xor (x y : UInt32) : crc32Bit (x ^^^ y) = crc32Bit x ^^^ crc32Bit y := by
  rw [← UInt32.toBitVec_inj, UInt32.toBitVec_xor]
  simp only [crc32Bit_toBitVec, UInt32.toBitVec_xor, BitVec.getLsbD_xor, BitVec.ushiftRight_xor_distrib]
  generalize x.toBitVec = a
  generalize y.toBitVec = b
  cases a.getLsbD 0 <;> cases b.getLsbD 0 <;> simp
  · rw [BitVec.xor_assoc]
  · ac_rfl
  · rw [BitVec.xor_assoc (a >>> 1), BitVec.xor_comm (b >>> 1), ← BitVec.xor_assoc (3988292384#32), BitVec.xor_self,
      BitVec.zero_xor]

theorem iterate_crc32Bit_xor (n : Nat) (x y : UInt32) :
    crc32Bit^[n] (x ^^^ y) = crc32Bit^[n] x ^^^ crc32Bit^[n] y := by
  induction n generalizing x y with
  | zero => rfl
  | succ n ih => simp only [Function.iterate_succ_apply, crc32Bit_xor, ih]

/-- As long as the lowest bit is zero a round is a shift. -/
theorem iterate_crc32Bit_of_low_zero (n : Nat) (c : UInt32) (h : ∀ i < n, c.toBitVec.getLsbD i = false) :
    (crc32Bit^[n] c).toBitVec = c.toBitVec >>> n := by
  induction n generalizing c with
  | zero => simp
  | succ n ih =>
    have hbit : (crc32Bit c).toBitVec = c.toBitVec >>> 1 := by
      rw [crc32Bit_toBitVec, h 0 (Nat.succ_pos n)]
      simp
    rw [Function.iterate_succ_apply, ih, hbit, ← BitVec.shiftRight_add, Nat.add_comm]
    intro i hi
    rw [hbit, BitVec.getLsbD_ushiftRight]
    exact h _ (by omega)

theorem getLsbD_low_byte {i : Nat} (hi : i < 32) : (0xFF#32).getLsbD i = decide (i < 8) := by
  interval_cases i <;> rfl

theorem getLsbD_high_bytes {i : Nat} (hi : i < 32) : (0xFFFFFF00#32).getLsbD i = !decide (i < 8) := by
  interval_cases i <;> rfl

/-- The table-driven step: eight rounds of the lowest byte, and a shift of the others. -/
theorem crc32Byte_eq (c : UInt32) (b : UInt8) :
    crc32Byte c b = crc32Bit^[8] ((c ^^^ b.toUInt32) &&& 0xFF) ^^^ c >>> 8 := by
  have hsplit : c ^^^ b.toUInt32 = ((c ^^^ b.toUInt32) &&& 0xFF) ^^^ (c &&& 0xFFFFFF00) := by
    rw [← UInt32.toBitVec_inj]
    refine BitVec.eq_of_getLsbD_eq fun i hi => ?_
    have hb : ¬i < 8 → b.toBitVec.getLsbD i = false := fun h => BitVec.getLsbD_of_ge _ _ (by omega)
    simp only [UInt32.toBitVec_xor, UInt32.toBitVec_and, BitVec.getLsbD_xor, BitVec.getLsbD_and, UInt32.toBitVec_ofNat,
      getLsbD_low_byte hi, getLsbD_high_bytes hi]
    by_cases h8 : i < 8
    · simp [h8]
    · simp [h8, hb h8]
  have hhigh : crc32Bit^[8] (c &&& 0xFFFFFF00) = c >>> 8 := by
    rw [← UInt32.toBitVec_inj, iterate_crc32Bit_of_low_zero]
    · refine BitVec.eq_of_getLsbD_eq fun i hi => ?_
      by_cases h24 : 8 + i < 32
      · simp [getLsbD_high_bytes h24]
      · have hc : c.toBitVec.getLsbD (8 + i) = false := BitVec.getLsbD_of_ge _ _ (by omega)
        simp [hc]
    · intro i hi
      simp [getLsbD_high_bytes (by omega : i < 32), hi]
  calc crc32Byte c b = crc32Bit^[8] (c ^^^ b.toUInt32) := rfl
    _ = crc32Bit^[8] ((c ^^^ b.toUInt32) &&& 0xFF) ^^^ c >>> 8 := by
      rw [hsplit, iterate_crc32Bit_xor, hhigh, ← hsplit]

namespace Native

/-- Entry `i` of `crc_table`. -/
def crcTable (i : UInt32) : UInt32 := crc32Bit^[8] i

/-- `crc32` of `core.cpp`. -/
def crc32 (data : Bytes) : Nat :=
  (data.foldl (fun c b => crcTable ((c ^^^ b.toUInt32) &&& 0xFF) ^^^ c >>> 8) 0xFFFFFFFF ^^^ 0xFFFFFFFF).toNat

theorem crc32_eq (data : Bytes) : crc32 data = LeafDb.crc32 data := by
  have hstep : (fun c (b : UInt8) => crcTable ((c ^^^ b.toUInt32) &&& 0xFF) ^^^ c >>> 8) = crc32Byte := by
    funext c b
    exact (crc32Byte_eq c b).symm
  rw [crc32, hstep, LeafDb.crc32]

/-! ### Writing -/

/-- `frame` in `append_batch`. A `uint32_t` takes the low four bytes. -/
def frame (pageNo : Nat) (payload : Bytes) : Bytes :=
  Wal.magic ++ packBE 4 pageNo ++ packBE 4 payload.length ++ packBE 4 (crc32 payload) ++ payload

/-- `WAL::append_batch`: the new log. The pages of a `std::map` come in ascending order. -/
def appendBatch (log : Bytes) (pages : List (Nat × Bytes)) (numPages : Nat) : Bytes :=
  log ++ (pages.flatMap (fun e => frame e.1 e.2) ++ frame Wal.commitPage (packBE 4 numPages))

/-- Both engines append the same bytes. -/
theorem appendBatch_eq (log : Bytes) (b : Batch) :
    Wal.appendBatch log b.pages b.numPages = .ok (appendBatch log b.pages b.numPages) := by
  rw [Wal.appendBatch_eq, Batch.blob, appendBatch]
  simp only [frame, crc32_eq, Wal.frameBytes]

/-! ### Reading -/

/-- `get_u32`; `none` when it reads beyond the buffer. -/
def getU32 (d : Bytes) : Option Nat := (readBE 4 0 d).map Prod.fst

/-- The frame at the beginning of `data`: its page number, its length and the bytes from its payload on;
`none` where the loop breaks. -/
def readFrame (data : Bytes) : Option (Nat × Nat × Bytes) :=
  if data.length < 16 then none
  else if data.take 4 ≠ Wal.magic then none
  else
    match getU32 (data.drop 4), getU32 (data.drop 8), getU32 (data.drop 12) with
    | some pageNo, some length, some crc =>
      if data.length < 16 + length then none
      else if crc32 ((data.drop 16).take length) ≠ crc then none
      else some (pageNo, length, data.drop 16)
    | _, _, _ => none

/-- `batch[page_no] = img` in a `std::map`, the list of its entries in ascending order. -/
def assign (pageNo : Nat) (img : Bytes) : List (Nat × Bytes) → List (Nat × Bytes)
  | [] => [(pageNo, img)]
  | e :: batch =>
    if pageNo < e.1 then (pageNo, img) :: e :: batch
    else if pageNo = e.1 then (pageNo, img) :: batch
    else e :: assign pageNo img batch

/-- One page of a committed batch: the file is extended, then written. `pg + 1` is a `uint32_t`. -/
def applyPage (db : Bytes) (pg : Nat) (img : Bytes) : Bytes :=
  let want := (pg + 1) % 2 ^ 32 * pageSize
  let db := if db.length < want then writeAt db (want - 1) [0] else db
  writeAt db (pg * pageSize) img

def applyBatch (db : Bytes) (batch : List (Nat × Bytes)) (numPages : Nat) : Bytes :=
  let db := batch.foldl (fun db e => applyPage db e.1 e.2) db
  let need := numPages * pageSize
  if db.length < need then writeAt db (need - 1) [0] else db

/-- The loop of `wal_recover`; `none` when it reads beyond the log, `applied` a `uint32_t`. -/
def replay : Nat → Bytes → Bytes → List (Nat × Bytes) → Nat → Option (Bytes × Nat)
  | 0, _, db, _, applied => some (db, applied)
  | fuel + 1, data, db, batch, applied =>
    match readFrame data with
    | none => some (db, applied)
    | some (pageNo, length, payload) =>
      if pageNo = Wal.commitPage then
        match getU32 payload with
        | none => none
        | some numPages => replay fuel (payload.drop length) (applyBatch db batch numPages) [] ((applied + 1) % 2 ^ 32)
      else replay fuel (payload.drop length) db (assign pageNo (payload.take length) batch) applied

/-- `wal_recover`: the new data file and the number of batches applied. -/
def walRecover (log db : Bytes) : Option (Bytes × Nat) :=
  if log.length ≤ 10 then some (db, 0) else replay log.length (log.drop 10) db [] 0

/-! ### The same frames -/

theorem getU32_drop (data : Bytes) {k : Nat} (h : k + 4 ≤ data.length) :
    ∃ v, getU32 (data.drop k) = some v ∧ readBE 4 0 (data.drop k) = some (v, data.drop (k + 4)) := by
  obtain ⟨v, hv⟩ := readBE_isSome 4 0 (data.drop k) (by simp; omega)
  exact ⟨v, by rw [getU32, hv]; rfl, by rw [hv, List.drop_drop]⟩

/-- Both loops see the same frames and break at the same places. -/
theorem nextFrame_eq (data : Bytes) :
    Wal.nextFrame data = (readFrame data).map fun f => (f.1, f.2.2.take f.2.1, f.2.2.drop f.2.1) := by
  unfold Wal.nextFrame readFrame
  by_cases hmagic : data.take 4 = Wal.magic
  swap
  · simp [hmagic]
  have h4 : 4 ≤ data.length := by
    have := congrArg List.length hmagic
    simp [Wal.magic] at this
    omega
  rw [if_pos hmagic, if_neg (by simpa using hmagic : ¬data.take 4 ≠ Wal.magic)]
  by_cases h8 : data.length < 8
  · rw [readBE_eq_none _ _ _ (by simp; omega), if_pos (by omega)]
    rfl
  obtain ⟨pageNo, hp, hp'⟩ := getU32_drop data (k := 4) (by omega)
  simp only [hp']
  by_cases h12 : data.length < 12
  · rw [readBE_eq_none _ _ _ (by simp; omega), if_pos (by omega)]
    rfl
  obtain ⟨length, hl, hl'⟩ := getU32_drop data (k := 8) (by omega)
  simp only [hl']
  by_cases h16 : data.length < 16
  · rw [readBE_eq_none _ _ _ (by simp; omega), if_pos (by omega)]
    rfl
  obtain ⟨crc, hc, hc'⟩ := getU32_drop data (k := 12) (by omega)
  simp only [hc', if_neg h16, hp, hl, hc, crc32_eq, List.length_drop]
  by_cases hlen : data.length < 16 + length
  · rw [if_neg (by omega), if_pos hlen]
    rfl
  · by_cases hcrc : LeafDb.crc32 ((data.drop 16).take length) = crc
    · rw [if_pos ⟨by omega, hcrc⟩, if_neg hlen, if_neg (by simpa using hcrc)]
      rfl
    · rw [if_neg (fun h => hcrc h.2), if_neg hlen, if_pos hcrc]
      rfl

theorem readFrame_none {data : Bytes} (h : Wal.nextFrame data = none) : readFrame data = none := by
  rw [nextFrame_eq] at h
  simpa using h

theorem readFrame_append {pageNo : Nat} {payload : Bytes} (hp : pageNo < 256 ^ 4) (hl : payload.length < 256 ^ 4)
    (rest : Bytes) : ∃ n, readFrame (Wal.frameBytes pageNo payload ++ rest) = some (pageNo, n, payload ++ rest) ∧
      (payload ++ rest).take n = payload ∧ (payload ++ rest).drop n = rest := by
  have h := Wal.nextFrame_append hp hl rest
  rw [nextFrame_eq, Option.map_eq_some_iff] at h
  obtain ⟨⟨pg, n, data⟩, hf, he⟩ := h
  simp only [Prod.mk.injEq] at he
  obtain ⟨rfl, htake, hdrop⟩ := he
  have hdata : data = payload ++ rest := by
    rw [← List.take_append_drop n data, htake, hdrop]
  rw [hdata] at hf htake hdrop
  exact ⟨n, hf, htake, hdrop⟩

/-! ### The same batch -/

theorem mem_assign {p : Nat} {img : Bytes} {batch : List (Nat × Bytes)} (h : (batch.map Prod.fst).Pairwise (· < ·))
    {e : Nat × Bytes} : e ∈ assign p img batch ↔ e = (p, img) ∨ e.1 ≠ p ∧ e ∈ batch := by
  induction batch with
  | nil => simp [assign]
  | cons e' batch ih =>
    rw [List.map_cons, List.pairwise_cons] at h
    have hlt : ∀ e ∈ batch, e'.1 < e.1 := fun e he => h.1 _ (List.mem_map_of_mem he)
    rw [assign]
    split
    · rename_i hp
      simp only [List.mem_cons]
      refine or_congr_right ⟨fun he => ⟨?_, he⟩, And.right⟩
      rcases he with rfl | he
      · exact Nat.ne_of_gt hp
      · exact Nat.ne_of_gt (hp.trans (hlt e he))
    · split
      · rename_i hp
        simp only [List.mem_cons]
        refine or_congr_right ⟨fun he => ⟨?_, .inr he⟩, ?_⟩
        · exact hp ▸ Nat.ne_of_gt (hlt e he)
        · rintro ⟨hne, rfl | he⟩
          · exact absurd hp.symm hne
          · exact he
      · rename_i hp
        rw [List.mem_cons, ih h.2, List.mem_cons]
        constructor
        · rintro (rfl | rfl | ⟨hne, he⟩)
          · exact .inr ⟨fun h => hp h.symm, .inl rfl⟩
          · exact .inl rfl
          · exact .inr ⟨hne, .inr he⟩
        · rintro (rfl | ⟨hne, rfl | he⟩)
          · exact .inr (.inl rfl)
          · exact .inl rfl
          · exact .inr (.inr ⟨hne, he⟩)

theorem pairwise_assign {p : Nat} {img : Bytes} {batch : List (Nat × Bytes)}
    (h : (batch.map Prod.fst).Pairwise (· < ·)) : ((assign p img batch).map Prod.fst).Pairwise (· < ·) := by
  induction batch with
  | nil => simp [assign]
  | cons e batch ih =>
    have h' := h
    rw [List.map_cons, List.pairwise_cons] at h
    rw [assign]
    split
    · rename_i hp
      rw [List.map_cons, List.pairwise_cons]
      refine ⟨fun k hk => ?_, h'⟩
      rcases List.mem_cons.1 hk with rfl | hk
      · exact hp
      · exact hp.trans (h.1 k hk)
    · split
      · rename_i hp
        simpa [hp] using h
      · rename_i hlt hne
        rw [List.map_cons, List.pairwise_cons]
        refine ⟨fun k hk => ?_, ih h.2⟩
        obtain ⟨e', he', rfl⟩ := List.mem_map.1 hk
        rcases (mem_assign h.2).1 he' with rfl | ⟨-, he'⟩
        · exact Nat.lt_of_le_of_ne (Nat.le_of_not_lt hlt) fun h => hne h.symm
        · exact h.1 _ (List.mem_map_of_mem he')

end Native

namespace Wal

theorem pairwise_sortedItems (batch : AList fun _ : Nat => Bytes) :
    ((sortedItems batch).map Prod.fst).Pairwise (· < ·) := by
  have hmap : (sortedItems batch).map Prod.fst = batch.keys.insertionSort (· ≤ ·) := by
    simp [sortedItems, Function.comp_def]
  have hnodup : (batch.keys.insertionSort (· ≤ ·)).Nodup :=
    (List.perm_insertionSort _ _).nodup_iff.2 batch.keys_nodup
  rw [hmap]
  exact (List.pairwise_insertionSort _ _).imp₂ (fun _ _ hle hne => Nat.lt_of_le_of_ne hle hne) hnodup

theorem mem_sortedItems {batch : AList fun _ : Nat => Bytes} {e : Nat × Bytes} :
    e ∈ sortedItems batch ↔ batch.lookup e.1 = some e.2 := by
  simp only [sortedItems, List.mem_map, List.mem_insertionSort]
  constructor
  · rintro ⟨p, hp, rfl⟩
    obtain ⟨img, himg⟩ := Option.isSome_iff_exists.1 (AList.lookup_isSome.2 (AList.mem_keys.2 hp))
    simp [himg]
  · intro h
    have hmem : e.1 ∈ batch := AList.lookup_isSome.1 (by rw [h]; rfl)
    exact ⟨e.1, AList.mem_keys.1 hmem, by simp [h]⟩

/-- Two lists of entries in ascending order are one if they have the same entries. -/
theorem eq_of_sorted_of_mem {l l' : List (Nat × Bytes)} (h : (l.map Prod.fst).Pairwise (· < ·))
    (h' : (l'.map Prod.fst).Pairwise (· < ·)) (hmem : ∀ e, e ∈ l ↔ e ∈ l') : l = l' := by
  rw [List.pairwise_map] at h h'
  have hnodup : ∀ {l : List (Nat × Bytes)}, l.Pairwise (fun a b => a.1 < b.1) → l.Nodup := fun h =>
    h.imp (by rintro a _ hlt rfl; exact Nat.lt_irrefl _ hlt)
  have hperm : l.Perm l' := (List.perm_ext_iff_of_nodup (hnodup h) (hnodup h')).2 hmem
  exact hperm.eq_of_pairwise (fun a b _ _ hab hba => absurd hab (Nat.lt_asymm hba)) h h'

/-- The `std::map` and the sorted dictionary of a batch have the same entries in the same order. -/
theorem sortedItems_insert (batch : AList fun _ : Nat => Bytes) (p : Nat) (img : Bytes) :
    sortedItems (batch.insert p img) = Native.assign p img (sortedItems batch) := by
  refine eq_of_sorted_of_mem (pairwise_sortedItems _) (Native.pairwise_assign (pairwise_sortedItems _)) fun e => ?_
  rw [Native.mem_assign (pairwise_sortedItems _), mem_sortedItems, mem_sortedItems]
  by_cases he : e.1 = p
  · rw [he, AList.lookup_insert]
    constructor
    · rintro ⟨⟩
      exact .inl (Prod.ext he rfl)
    · rintro (rfl | ⟨hne, -⟩)
      · rfl
      · exact absurd rfl hne
  · rw [AList.lookup_insert_ne he]
    exact ⟨fun h => .inr ⟨he, h⟩, fun h => h.elim (fun h => absurd (congrArg Prod.fst h) he) And.right⟩

end Wal

namespace Native

/-! ### The same data file -/

/-- Extending the file first changes nothing: the image reaches as far. -/
theorem applyPage_eq {pg : Nat} {img : Bytes} (hp : pg < Wal.commitPage) (hl : img.length = pageSize) (db : Bytes) :
    applyPage db pg img = writePage db pg img := by
  have hwant : (pg + 1) % 2 ^ 32 * pageSize = pg * pageSize + pageSize := by
    rw [Nat.mod_eq_of_lt (by simp only [Wal.commitPage] at hp; omega), Nat.succ_mul]
  have hpos : 0 < pageSize := by decide
  have hne : img ≠ [] := by
    rintro rfl
    simp at hl
    omega
  rw [applyPage, writePage, hwant]
  split
  · rename_i hlt
    refine ext_getD ?_ fun i => ?_
    · rw [length_writeAt _ _ _ hne, length_writeAt _ _ _ (List.cons_ne_nil _ _), length_writeAt _ _ _ hne, hl]
      simp only [List.length_singleton]
      omega
    · simp only [getD_writeAt, hl]
      split
      · rfl
      · rename_i hout
        -- the byte before the end of the page is inside the image
        rw [if_neg (by simp only [List.length_singleton]; omega)]
  · rfl

theorem applyBatch_eq {pages : List (Nat × Bytes)} (h : ∀ e ∈ pages, e.1 < Wal.commitPage ∧ e.2.length = pageSize)
    (db : Bytes) (numPages : Nat) : applyBatch db pages numPages = Wal.applyBatch db pages numPages := by
  have hpages : pages.foldl (fun db e => applyPage db e.1 e.2) db = Pager.writePages db pages := by
    induction pages generalizing db with
    | nil => rfl
    | cons e pages ih =>
      rw [List.foldl_cons, applyPage_eq (h e List.mem_cons_self).1 (h e List.mem_cons_self).2,
        ih fun e he => h e (List.mem_cons_of_mem _ he)]
      rfl
  rw [applyBatch, Wal.applyBatch, hpages]

end Native

/-! ### The two loops -/

/-- What is left of a log of batches with a torn tail: frames of pages, commit records, then a stop. -/
inductive Clean : Bytes → Prop
  | stop {data : Bytes} (h : Wal.nextFrame data = none) : Clean data
  | page {p : Nat} {img rest : Bytes} (hp : p < Wal.commitPage) (hl : img.length = pageSize) (hrest : Clean rest) :
      Clean (Wal.frameBytes p img ++ rest)
  | commit {n : Nat} {rest : Bytes} (hn : n < 256 ^ 4) (hrest : Clean rest) :
      Clean (Wal.frameBytes Wal.commitPage (packBE 4 n) ++ rest)

namespace Clean

theorem pages {pages : List (Nat × Bytes)} (h1 : ∀ e ∈ pages, e.1 < Wal.commitPage)
    (h2 : ∀ e ∈ pages, e.2.length = pageSize) {rest : Bytes} (hrest : Clean rest) :
    Clean (pages.flatMap (fun e => Wal.frameBytes e.1 e.2) ++ rest) := by
  induction pages with
  | nil => exact hrest
  | cons e pages ih =>
    rw [List.flatMap_cons, List.append_assoc]
    exact .page (h1 e List.mem_cons_self) (h2 e List.mem_cons_self)
      (ih (fun e he => h1 e (List.mem_cons_of_mem _ he)) fun e he => h2 e (List.mem_cons_of_mem _ he))

theorem torn {tail : Bytes} (h : Torn tail) : Clean tail := by
  obtain ⟨pages, cut, rfl, hcut, h1, h2⟩ := Wal.torn_cases h
  exact .pages h1 h2 (.stop hcut)

theorem blobs (bs : List Batch) {tail : Bytes} (h : Torn tail) : Clean (blobs bs ++ tail) := by
  induction bs with
  | nil => exact .torn h
  | cons b bs ih =>
    rw [blobs_cons, Batch.blob, List.append_assoc, List.append_assoc]
    exact .pages b.page_lt b.page_length (.commit b.numPages_lt ih)

/-- The loops in step: the same file and the same batch so far, the counts modulo `2 ^ 32`. -/
theorem replay {data : Bytes} (h : Clean data) (fuel : Nat) (db : Bytes) (batch : AList fun _ : Nat => Bytes)
    (hbatch : ∀ e ∈ Wal.sortedItems batch, e.1 < Wal.commitPage ∧ e.2.length = pageSize) (applied : Nat) :
    ∃ f n, Wal.replay fuel data db batch applied = .ok (f, n) ∧
      Native.replay fuel data db (Wal.sortedItems batch) (applied % 2 ^ 32) = some (f, n % 2 ^ 32) := by
  induction h generalizing fuel db batch applied with
  | stop hstop =>
    refine ⟨db, applied, ?_⟩
    rcases fuel with _ | fuel
    · exact ⟨rfl, rfl⟩
    · rw [Wal.replay, hstop, Native.replay, Native.readFrame_none hstop]
      exact ⟨rfl, rfl⟩
  | @page p img rest hp hl _ ih =>
    rcases fuel with _ | fuel
    · exact ⟨db, applied, rfl, rfl⟩
    have hlt : img.length < 256 ^ 4 := hl ▸ Wal.pageSize_lt
    obtain ⟨n, hread, htake, hdrop⟩ := Native.readFrame_append (Nat.lt_trans hp Wal.commitPage_lt) hlt rest
    rw [Wal.replay, Wal.nextFrame_append (Nat.lt_trans hp Wal.commitPage_lt) hlt, Native.replay, hread]
    simp only [Nat.ne_of_lt hp, if_false, htake, hdrop, ← Wal.sortedItems_insert]
    refine ih fuel db _ (fun e he => ?_) applied
    rw [Wal.sortedItems_insert, Native.mem_assign (Wal.pairwise_sortedItems _)] at he
    rcases he with rfl | ⟨-, he⟩
    · exact ⟨hp, hl⟩
    · exact hbatch e he
  | @commit numPages rest hn _ ih =>
    rcases fuel with _ | fuel
    · exact ⟨db, applied, rfl, rfl⟩
    obtain ⟨n, hread, htake, hdrop⟩ := Native.readFrame_append Wal.commitPage_lt (Wal.length_packed numPages) rest
    have hget : Native.getU32 (packBE 4 numPages ++ rest) = some numPages := by
      rw [Native.getU32, readBE_packBE 4 numPages 0 rest hn]
      simp
    rw [Wal.replay, Wal.nextFrame_append Wal.commitPage_lt (Wal.length_packed _), Native.replay, hread]
    simp only [if_true, Wal.unpackU32_packBE hn, hget, hdrop, Native.applyBatch_eq hbatch, Nat.mod_add_mod]
    exact ih fuel _ ∅ (fun e he => by rw [Wal.mem_sortedItems, AList.lookup_empty] at he; cases he) (applied + 1)

end Clean

/-- What the native recovery does with a log of batches and a torn tail. -/
theorem Native.walRecover_eq (bs : List Batch) {tail : Bytes} (ht : Torn tail) (db : Bytes) :
    Native.walRecover (Wal.header ++ (blobs bs ++ tail)) db = some (Batch.applyAll db bs, bs.length % 2 ^ 32) := by
  have hdrop : (Wal.header ++ (blobs bs ++ tail)).drop 10 = blobs bs ++ tail := rfl
  have hpy := @Wal.recover_eq (Wal.header ++ (blobs bs ++ tail)) _ _ hdrop ht db
  obtain ⟨f, n, h1, h2⟩ := (Clean.blobs bs ht).replay (Wal.header ++ (blobs bs ++ tail)).length db ∅
    (fun e he => by rw [Wal.mem_sortedItems, AList.lookup_empty] at he; cases he) 0
  rw [Wal.recover] at hpy
  have hten : Wal.header.length = 10 := rfl
  rw [hten] at hpy
  rw [Native.walRecover]
  split
  · rename_i hle
    rw [if_pos hle] at hpy
    simp only [Except.ok.injEq, Prod.mk.injEq] at hpy
    rw [← hpy.1, ← hpy.2]
    rfl
  · rename_i hle
    rw [if_neg hle, hdrop, h1] at hpy
    simp only [Except.ok.injEq, Prod.mk.injEq] at hpy
    rw [hdrop, ← hpy.1, ← hpy.2]
    exact h2

/-- `recover` and `wal_recover` return the same count and leave the same data file. -/
def RecoverAgree (log db : Bytes) : Prop :=
  ∃ f n, Wal.recover log db = .ok (f, n) ∧ Native.walRecover log db = some (f, n)

/-- The two recoveries agree on every log of fewer than `2 ^ 32` batches, whatever tail it has, and on no
other: then the native one has lost the upper bits of the count. -/
theorem recoverAgree_iff (db : Bytes) (bs : List Batch) {tail : Bytes} (ht : Torn tail) :
    RecoverAgree (Wal.header ++ (blobs bs ++ tail)) db ↔ bs.length < 2 ^ 32 := by
  have hpy := @Wal.recover_eq (Wal.header ++ (blobs bs ++ tail)) bs _ rfl ht db
  have hcpp := Native.walRecover_eq bs ht db
  constructor
  · rintro ⟨f, n, h1, h2⟩
    rw [hpy] at h1
    rw [hcpp] at h2
    simp only [Except.ok.injEq, Option.some.injEq, Prod.mk.injEq] at h1 h2
    calc bs.length = bs.length % 2 ^ 32 := h1.2.trans h2.2.symm
      _ < 2 ^ 32 := Nat.mod_lt _ (by norm_num)
  · intro hlt
    refine ⟨_, _, hpy, ?_⟩
    rw [hcpp, Nat.mod_eq_of_lt hlt]

/-- A batch of one page, another of the same page and a torn third. -/
theorem recoverAgree_torn : RecoverAgree
    (Wal.header ++ (blobs [onePage, { onePage with numPages := 5, numPages_lt := by norm_num }] ++ onePage.blob.take 100)) [1, 2, 3] :=
  (recoverAgree_iff [1, 2, 3] _ ⟨onePage, 100, by
    have : pageSize = 4096 := rfl
    simp only [Batch.blob, onePage, List.flatMap_cons, List.flatMap_nil, List.append_nil, List.length_append, Wal.length_frameBytes,
      List.length_replicate]
    omega, rfl⟩).2 (by decide)

/-- A log of `2 ^ 32` batches of one page. -/
theorem not_recoverAgree : ¬RecoverAgree (Wal.header ++ (blobs (List.replicate (2 ^ 32) onePage) ++ [])) [] := by
  rintro ⟨f, n, h1, h2⟩
  rw [Wal.recover_eq rfl Wal.torn_nil] at h1
  rw [Native.walRecover_eq _ Wal.torn_nil] at h2
  simp only [Except.ok.injEq, Option.some.injEq, Prod.mk.injEq, List.length_replicate] at h1 h2
  exact absurd (h1.2.trans h2.2.symm) (by decide)

end LeafDb
