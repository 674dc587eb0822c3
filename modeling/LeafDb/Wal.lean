import LeafDb.Pager

/-!
# Write-ahead log (`wal.py`)

The log file is its list of bytes, `[]` for a missing file. Both loops of the source, the one of
`recover` and the one of `read_batches_from`, read one frame after another from what is left of the
log (`nextFrame`) and stop at the first frame that is cut off or does not check.
-/

namespace LeafDb

/-! ### CRC-32 as `zlib.crc32` computes it -/

def crc32Bit (c : UInt32) : UInt32 :=
  if c &&& 1 = 1 then (c >>> 1) ^^^ 0xEDB88320 else c >>> 1

def crc32Byte (c : UInt32) (b : UInt8) : UInt32 :=
  crc32Bit <| crc32Bit <| crc32Bit <| crc32Bit <| crc32Bit <| crc32Bit <| crc32Bit <| crc32Bit <|
    c ^^^ b.toUInt32

def crc32 (payload : Bytes) : Nat := (payload.foldl crc32Byte 0xFFFFFFFF ^^^ 0xFFFFFFFF).toNat

theorem crc32_lt (payload : Bytes) : crc32 payload < 256 ^ 4 := UInt32.toNat_lt _

namespace Wal

/-- `b"LFDB"`. -/
def magic : Bytes := [76, 70, 68, 66]

/-- `b"LEAFWAL01\n"`. -/
def header : Bytes := [76, 69, 65, 70, 87, 65, 76, 48, 49, 10]

def commitPage : Nat := 0xFFFFFFFF

/-! ### Writing -/

/-- `_frame`; `struct.pack` refuses a field that is not below `2 ^ 32`. -/
def frame (pageNo : Nat) (payload : Bytes) : Except PyError Bytes :=
  if pageNo < 256 ^ 4 ∧ payload.length < 256 ^ 4 then
    .ok (magic ++ packBE 4 pageNo ++ packBE 4 payload.length ++ packBE 4 (crc32 payload) ++ payload)
  else .error .structError

def commitFrame (numPages : Nat) : Except PyError Bytes :=
  if numPages < 256 ^ 4 then frame commitPage (packBE 4 numPages) else .error .structError

def frames : List (Nat × Bytes) → Except PyError Bytes
  | [] => .ok []
  | (p, data) :: pages =>
    match frame p data, frames pages with
    | .ok f, .ok fs => .ok (f ++ fs)
    | .error e, _ => .error e
    | _, .error e => .error e

/-- `append_batch`: the new log. Nothing is written when a frame cannot be packed. -/
def appendBatch (log : Bytes) (pages : List (Nat × Bytes)) (numPages : Nat) : Except PyError Bytes :=
  match frames (pages.insertionSort (·.1 ≤ ·.1)), commitFrame numPages with
  | .ok fs, .ok c => .ok (log ++ fs ++ c)
  | .error e, _ => .error e
  | _, .error e => .error e

/-- `WAL.__init__`: a log shorter than the header is started afresh. -/
def openLog (log : Bytes) : Bytes := if header.length ≤ log.length then log else header

/-! ### Reading -/

/-- The frame at the beginning of `data` and what follows it; `none` where the loops stop. -/
def nextFrame (data : Bytes) : Option (Nat × Bytes × Bytes) :=
  if data.take 4 = magic then
    match readBE 4 0 (data.drop 4) with
    | none => none
    | some (pageNo, data) =>
      match readBE 4 0 data with
      | none => none
      | some (length, data) =>
        match readBE 4 0 data with
        | none => none
        | some (crc, data) =>
          if length ≤ data.length ∧ crc32 (data.take length) = crc then
            some (pageNo, data.take length, data.drop length)
          else none
  else none

/-- `struct.unpack(">I", payload)`. -/
def unpackU32 (payload : Bytes) : Except PyError Nat :=
  match readBE 4 0 payload with
  | some (v, []) => .ok v
  | _ => .error .structError

/-- The pages of the dictionary `batch` in ascending order. -/
def sortedItems (batch : AList fun _ : Nat => Bytes) : List (Nat × Bytes) :=
  (batch.keys.insertionSort (· ≤ ·)).map fun p => (p, (batch.lookup p).getD [])

/-- What `recover` does to the data file for one committed batch. -/
def applyBatch (db : Bytes) (pages : List (Nat × Bytes)) (numPages : Nat) : Bytes :=
  let db := Pager.writePages db pages
  let need := numPages * pageSize
  if db.length < need then writeAt db (need - 1) [0] else db

/-- The loop of `recover`. Every frame has at least 16 bytes, so the log's length bounds the rounds. -/
def replay : Nat → Bytes → Bytes → (AList fun _ : Nat => Bytes) → Nat → Except PyError (Bytes × Nat)
  | 0, _, db, _, applied => .ok (db, applied)
  | fuel + 1, data, db, batch, applied =>
    match nextFrame data with
    | none => .ok (db, applied)
    | some (pageNo, payload, rest) =>
      if pageNo = commitPage then
        match unpackU32 payload with
        | .error e => .error e
        | .ok numPages => replay fuel rest (applyBatch db (sortedItems batch) numPages) ∅ (applied + 1)
      else replay fuel rest db (batch.insert pageNo payload) applied

/-- `recover`: the new data file and the number of batches applied. -/
def recover (log db : Bytes) : Except PyError (Bytes × Nat) :=
  if log.length ≤ header.length then .ok (db, 0)
  else replay log.length (log.drop header.length) db ∅ 0

/-- The loop of `read_batches_from`; `pos` is the offset of `data` in the log. -/
def parse : Nat → Bytes → Nat → (AList fun _ : Nat => Bytes) →
    Except PyError (List (Nat × List (Nat × Bytes) × Nat))
  | 0, _, _, _ => .ok []
  | fuel + 1, data, pos, batch =>
    match nextFrame data with
    | none => .ok []
    | some (pageNo, payload, rest) =>
      let pos := pos + (data.length - rest.length)
      if pageNo = commitPage then
        match unpackU32 payload with
        | .error e => .error e
        | .ok numPages => (parse fuel rest pos ∅).map ((pos, sortedItems batch, numPages) :: ·)
      else parse fuel rest pos (batch.insert pageNo payload)

/-- `read_batches_from(offset, end)` with a known end. -/
def readBatchesFrom (log : Bytes) (offset stop : Nat) :
    Except PyError (List (Nat × List (Nat × Bytes) × Nat)) :=
  if stop ≤ offset then .ok []
  else
    let data := readAt log offset (stop - offset)
    parse data.length data offset ∅

end Wal

/-! ### Batches -/

/-- A batch that `append_batch` can write and the reading loops can tell from a commit record. -/
@[ext] structure Batch where
  pages : List (Nat × Bytes)
  numPages : Nat
  sorted : (pages.map Prod.fst).Pairwise (· < ·)
  page_lt : ∀ e ∈ pages, e.1 < Wal.commitPage
  page_length : ∀ e ∈ pages, e.2.length = pageSize
  numPages_lt : numPages < 256 ^ 4

namespace Wal

theorem commitPage_lt : commitPage < 256 ^ 4 := by decide

theorem pageSize_lt : pageSize < 256 ^ 4 := by decide

/-- The bytes of one frame. -/
def frameBytes (pageNo : Nat) (payload : Bytes) : Bytes :=
  magic ++ packBE 4 pageNo ++ packBE 4 payload.length ++ packBE 4 (crc32 payload) ++ payload

theorem frame_eq {pageNo : Nat} {payload : Bytes} (hp : pageNo < 256 ^ 4) (hl : payload.length < 256 ^ 4) :
    frame pageNo payload = .ok (frameBytes pageNo payload) := by
  rw [frame, if_pos ⟨hp, hl⟩, frameBytes]

theorem length_frameBytes (pageNo : Nat) (payload : Bytes) :
    (frameBytes pageNo payload).length = 16 + payload.length := by
  simp [frameBytes, magic]; omega

theorem take_magic (data : Bytes) : (magic ++ data).take 4 = magic := rfl

theorem drop_magic (data : Bytes) : (magic ++ data).drop 4 = data := rfl

/-- A frame is read back, whatever follows it. -/
theorem nextFrame_append {pageNo : Nat} {payload : Bytes} (hp : pageNo < 256 ^ 4)
    (hl : payload.length < 256 ^ 4) (rest : Bytes) :
    nextFrame (frameBytes pageNo payload ++ rest) = some (pageNo, payload, rest) := by
  have hsplit : frameBytes pageNo payload ++ rest = magic ++ (packBE 4 pageNo ++ (packBE 4 payload.length ++
      (packBE 4 (crc32 payload) ++ (payload ++ rest)))) := by simp [frameBytes]
  have h1 := readBE_packBE 4 pageNo 0 (packBE 4 payload.length ++ (packBE 4 (crc32 payload) ++ (payload ++ rest))) hp
  have h2 := readBE_packBE 4 payload.length 0 (packBE 4 (crc32 payload) ++ (payload ++ rest)) hl
  have h3 := readBE_packBE 4 (crc32 payload) 0 (payload ++ rest) (crc32_lt payload)
  simp only [Nat.zero_mul, Nat.zero_add] at h1 h2 h3
  rw [hsplit, nextFrame, take_magic, if_pos rfl, drop_magic]
  simp [h1, h2, h3]

/-- A proper prefix of a frame is not read as a frame. -/
theorem nextFrame_take {pageNo : Nat} {payload : Bytes} {k : Nat} (hl : payload.length < 256 ^ 4)
    (hk : k < (frameBytes pageNo payload).length) : nextFrame ((frameBytes pageNo payload).take k) = none := by
  rw [length_frameBytes] at hk
  have hsplit : frameBytes pageNo payload = magic ++ (packBE 4 pageNo ++ (packBE 4 payload.length ++
      (packBE 4 (crc32 payload) ++ payload))) := by simp [frameBytes]
  have hdrop : ((frameBytes pageNo payload).take k).drop 4 =
      (packBE 4 pageNo ++ (packBE 4 payload.length ++ (packBE 4 (crc32 payload) ++ payload))).take (k - 4) := by
    rw [List.drop_take, hsplit, List.drop_append_of_le_length (by simp [magic])]
    simp [magic]
  rw [nextFrame]
  split
  swap
  · rfl
  rw [hdrop]
  by_cases h8 : k - 4 < 4
  · rw [readBE_eq_none _ _ _ (by simp; omega)]
  -- the header is read field by field as far as it is there
  rw [List.take_append, List.take_of_length_le (by simp; omega : (packBE 4 pageNo).length ≤ k - 4)]
  obtain ⟨v, hv⟩ := readBE_isSome 4 0 (packBE 4 pageNo) (by simp)
  rw [readBE_append_left hv]
  simp only [List.drop_of_length_le (by simp : (packBE 4 pageNo).length ≤ 4), List.nil_append, length_packBE]
  by_cases h12 : k - 4 - 4 < 4
  · rw [readBE_eq_none _ _ _ (by simp; omega)]
  rw [List.take_append, List.take_of_length_le (by simp; omega : (packBE 4 payload.length).length ≤ k - 4 - 4)]
  have h2 := readBE_packBE 4 payload.length 0
    ((packBE 4 (crc32 payload) ++ payload).take (k - 4 - 4 - (packBE 4 payload.length).length)) hl
  simp only [Nat.zero_mul, Nat.zero_add] at h2
  rw [h2]
  simp only [length_packBE]
  by_cases h16 : k - 4 - 4 - 4 < 4
  · rw [readBE_eq_none _ _ _ (by simp; omega)]
  rw [List.take_append, List.take_of_length_le (by simp; omega : (packBE 4 (crc32 payload)).length ≤ k - 4 - 4 - 4)]
  have h3 := readBE_packBE 4 (crc32 payload) 0
    (payload.take (k - 4 - 4 - 4 - (packBE 4 (crc32 payload)).length)) (crc32_lt payload)
  simp only [Nat.zero_mul, Nat.zero_add] at h3
  rw [h3]
  simp only [length_packBE, List.length_take]
  rw [if_neg (by omega)]

end Wal

end LeafDb
