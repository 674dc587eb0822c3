import LeafDb.Base.ByteFile

/-!
# Pager and buffer pool (`pager.py`)

The pool is an `AList` with the most recently used page first, so `move_to_end` is an insert and
`popitem(last=False)` takes the last entry. A page image is a Python `bytes` object: `Image.id` is its
identity, which the node cache of the B+ tree compares with `is`. Every image the pager makes gets the
next unused id; only `EMPTY_PAGE` is a constant object.
-/

namespace LeafDb

/-- The exceptions the modelled code raises. `diverges` stands for a loop over the pages that never
ends (no exception in the source). -/
inductive PyError
  | indexError | keyError | valueError | typeError | attributeError | overflowError | unicodeError
  | runtimeError
  | structError
  | duplicateKey (key : Int)
  | nameError
  | catalogError | sqlError | transactionError | executionError
  | diverges
deriving DecidableEq, Repr

def pageSize : Nat := 4096

/-- A page image: a `bytes` object with its identity. -/
structure Image where
  id : Nat
  bytes : Bytes
deriving DecidableEq, Repr

/-- `EMPTY_PAGE`. -/
def emptyPage : Image := ⟨0, List.replicate pageSize 0⟩

/-! ### `BufferPool` -/

/-- A pool of capacity 0 cannot hold the page being read: every `get` raises. -/
structure BufferPool where
  capacity : Nat
  pages : AList fun _ : Nat => Image
  dirty : List Nat
  capacity_pos : 0 < capacity

namespace BufferPool

def get (b : BufferPool) (n : Nat) : Option (Image × BufferPool) :=
  (b.pages.lookup n).map fun data => (data, { b with pages := b.pages.insert n data })

def put (b : BufferPool) (n : Nat) (data : Image) (dirty : Bool) : BufferPool :=
  { b with
    pages := b.pages.insert n data
    dirty := if dirty then b.dirty.insert n else b.dirty }

/-- `self.dirty.discard(n)`. -/
def discardDirty (b : BufferPool) (n : Nat) : BufferPool :=
  { b with dirty := b.dirty.filter (· ≠ n) }

/-- `self.pages.pop(n, None)`. -/
def pop (b : BufferPool) (n : Nat) : BufferPool := { b with pages := b.pages.erase n }

end BufferPool

/-! ### `Pager` -/

/-- What a pager holds in memory. -/
structure PagerMem where
  pool : BufferPool
  numPages : Nat
  touched : Option (List Nat)
  shadow : AList fun _ : Nat => Option Image
  nextId : Nat

/-- A pager with the content of its data file. -/
structure Pager extends PagerMem where
  file : Bytes

/-- `Pager._read_page`: missing bytes are zero. -/
def readPage (f : Bytes) (n : Nat) : Bytes := padTo pageSize (readAt f (n * pageSize) pageSize)

/-- `Pager._write_page`. -/
def writePage (f : Bytes) (n : Nat) (data : Bytes) : Bytes := writeAt f (n * pageSize) data

theorem length_readPage (f : Bytes) (n : Nat) : (readPage f n).length = pageSize :=
  length_padTo (length_readAt_le ..)

theorem getD_readPage (f : Bytes) (n i : Nat) :
    (readPage f n).getD i 0 = if i < pageSize then f.getD (n * pageSize + i) 0 else 0 := by
  rw [readPage, getD_padTo, getD_readAt]

theorem readPage_writePage {f data : Bytes} {n m : Nat} (h : data.length = pageSize) :
    readPage (writePage f n data) m = if m = n then data else readPage f m := by
  refine ext_getD (by split <;> simp [length_readPage, h]) fun i => ?_
  rw [getD_readPage, writePage, getD_writeAt, h]
  by_cases hi : i < pageSize
  · rw [if_pos hi]
    by_cases hmn : m = n
    · subst hmn
      rw [if_pos rfl, if_pos ⟨Nat.le_add_right .., by omega⟩, Nat.add_sub_cancel_left]
    · rw [if_neg hmn, getD_readPage, if_pos hi, if_neg]
      simp only [pageSize] at *
      omega
  · rw [if_neg hi]
    split
    · rw [List.getD_eq_default _ _ (by omega)]
    · rw [getD_readPage, if_neg hi]

theorem Pager.length_writePage (f : Bytes) (n : Nat) {data : Bytes} (h : data.length = pageSize) :
    (writePage f n data).length = max f.length ((n + 1) * pageSize) := by
  rw [writePage, length_writeAt _ _ _ (by rintro rfl; cases h), h, Nat.add_one_mul]

namespace Pager

/-- `Pager.__init__` on a data file with the given content. -/
def openFile (file : Bytes) (cacheSize : Nat) (h : 0 < cacheSize) : Pager where
  pool := ⟨cacheSize, ∅, [], h⟩
  numPages := max 1 (file.length / pageSize)
  touched := none
  shadow := ∅
  nextId := 1
  file := file

/-- A new `bytes` object. -/
def newImage (p : Pager) (bytes : Bytes) : Image × Pager :=
  (⟨p.nextId, bytes⟩, { p with nextId := p.nextId + 1 })

/-- One round of the loop of `_evict_if_full`: the least recently used page leaves the pool. -/
def evictOldest (p : Pager) : Pager :=
  match p.pool.pages.entries.getLast? with
  | none => p
  | some ⟨old, data⟩ =>
    if old ∈ p.pool.dirty then
      { p with file := writePage p.file old data.bytes, pool := (p.pool.pop old).discardDirty old }
    else { p with pool := p.pool.pop old }

/-- `while len(self.pool.pages) >= self.pool.capacity`; every round removes a page, so the pool's
size bounds the number of rounds. -/
def evictLoop : Nat → Pager → Pager
  | 0, p => p
  | fuel + 1, p =>
    if p.pool.pages.entries.length < p.pool.capacity then p else evictLoop fuel p.evictOldest

def evictIfFull (p : Pager) : Pager :=
  if p.touched.isSome then p else evictLoop p.pool.pages.entries.length p

def get (p : Pager) (n : Nat) : Except PyError (Image × Pager) :=
  if p.numPages ≤ n ∧ n ≠ 0 then .error .indexError
  else match p.pool.get n with
    | some (data, pool) => .ok (data, { p with pool := pool })
    | none =>
      let (data, p) := p.newImage (readPage p.file n)
      let p := p.evictIfFull
      .ok (data, { p with pool := p.pool.put n data false })

/-- The first write to `n` in a transaction keeps the image it had: from the pool, else from the
file when the file has the whole page, else nothing. -/
def saveShadow (p : Pager) (n : Nat) : Pager :=
  if p.touched.isSome ∧ n ∉ p.shadow then
    match p.pool.get n with
    | some (current, pool) => { p with pool := pool, shadow := p.shadow.insert n (some current) }
    | none =>
      if (n + 1) * pageSize ≤ p.file.length then
        let (current, p) := p.newImage (readPage p.file n)
        { p with shadow := p.shadow.insert n (some current) }
      else { p with shadow := p.shadow.insert n none }
  else p

/-- The pool's part of `write`. -/
def install (p : Pager) (n : Nat) (padded : Image) : Pager :=
  let p := p.evictIfFull
  { p with
    pool := p.pool.put n padded true
    numPages := if p.numPages ≤ n then n + 1 else p.numPages
    touched := p.touched.map (·.insert n) }

/-- `write` once the data is padded: the new image object replaces page `n`. -/
def putPage (p : Pager) (n : Nat) (padded : Image) : Pager := (p.saveShadow n).install n padded

def write (p : Pager) (n : Nat) (data : Bytes) : Except PyError Pager :=
  if pageSize < data.length then .error .valueError
  else
    let (padded, p) := p.newImage (padTo pageSize data)
    .ok (p.putPage n padded)

/-- `allocate` writes the constant `EMPTY_PAGE` (padding it with nothing gives the same object). -/
def allocate (p : Pager) : Nat × Pager :=
  let n := p.numPages
  (n, { p with numPages := n + 1 }.putPage n emptyPage)

def beginTxn (p : Pager) : Except PyError Pager :=
  if p.touched.isSome then .error .runtimeError
  else .ok { p with touched := some [], shadow := ∅ }

/-- One page of `rollback_txn`. -/
def restore (b : BufferPool) : Nat → Option Image → BufferPool
  | n, none => (b.pop n).discardDirty n
  | n, some image => (b.put n image false).discardDirty n

/-- `rollback_txn` goes through the shadow in the order of the first writes. -/
def rollbackTxn (p : Pager) : Pager :=
  { p with
    pool := p.shadow.entries.reverse.foldl (fun b e => restore b e.1 e.2) p.pool
    shadow := ∅
    touched := none }

/-- The image of every page of `pages`, which must be in the pool. -/
def poolImages (b : BufferPool) : List Nat → Except PyError (List (Nat × Bytes))
  | [] => .ok []
  | n :: pages =>
    match b.pages.lookup n with
    | none => .error .keyError
    | some data => (poolImages b pages).map ((n, data.bytes) :: ·)

def collectCommit (p : Pager) : Except PyError (List (Nat × Bytes) × Nat × Pager) :=
  let pages := (p.touched.getD []).insertionSort (· ≤ ·)
  (poolImages p.pool pages).map fun images =>
    (images, p.numPages, { p with touched := none, shadow := ∅ })

def writePages (f : Bytes) (images : List (Nat × Bytes)) : Bytes :=
  images.foldl (fun f e => writePage f e.1 e.2) f

def flush (p : Pager) : Except PyError Pager :=
  (poolImages p.pool (p.pool.dirty.insertionSort (· ≤ ·))).map fun images =>
    { p with file := writePages p.file images, pool := { p.pool with dirty := [] } }

end Pager

end LeafDb
