import LeafDb.WalRecovery
import LeafDb.PagerTxn

/-!
# Page images and the data file

`imageAfter pages c n` is the image of page `n` after the writes `pages`, where it was `c` before them.
Writing the pages of a batch to the data file, and replaying a log over it, is this on every page; the
padding of the file at the end of a batch shows nowhere.
-/

namespace LeafDb

/-- The image of page `n`, `c` at first, after the images `pages` were written in order. -/
def imageAfter (pages : List (Nat × Bytes)) (c : Bytes) (n : Nat) : Bytes :=
  pages.foldl (fun c e => if e.1 = n then e.2 else c) c

@[simp] theorem imageAfter_nil (c : Bytes) (n : Nat) : imageAfter [] c n = c := rfl

theorem imageAfter_append (pages pages' : List (Nat × Bytes)) (c : Bytes) (n : Nat) :
    imageAfter (pages ++ pages') c n = imageAfter pages' (imageAfter pages c n) n :=
  List.foldl_append

theorem imageAfter_of_notMem {pages : List (Nat × Bytes)} {n : Nat} (h : n ∉ pages.map Prod.fst) (c : Bytes) :
    imageAfter pages c n = c := by
  induction pages generalizing c with
  | nil => rfl
  | cons e pages ih =>
    rw [List.map_cons, List.mem_cons, not_or] at h
    show imageAfter pages (if e.1 = n then e.2 else c) n = c
    rw [if_neg (Ne.symm h.1)]
    exact ih h.2 c

/-- What a written page was before does not matter. -/
theorem imageAfter_of_mem {pages : List (Nat × Bytes)} {n : Nat} (h : n ∈ pages.map Prod.fst) (c c' : Bytes) :
    imageAfter pages c n = imageAfter pages c' n := by
  induction pages generalizing c c' with
  | nil => cases h
  | cons e pages ih =>
    show imageAfter pages (if e.1 = n then e.2 else c) n = imageAfter pages (if e.1 = n then e.2 else c') n
    by_cases he : e.1 = n
    · rw [if_pos he, if_pos he]
    · rw [if_neg he, if_neg he]
      rw [List.map_cons, List.mem_cons] at h
      exact ih (h.resolve_left (Ne.symm he)) c c'

theorem imageAfter_map (pages : List Nat) (g : Nat → Bytes) (c : Bytes) (n : Nat) :
    imageAfter (pages.map fun n => (n, g n)) c n = if n ∈ pages then g n else c := by
  induction pages generalizing c with
  | nil => simp
  | cons m pages ih =>
    show imageAfter (pages.map fun n => (n, g n)) (if m = n then g m else c) n = _
    rw [ih]
    by_cases hm : m = n
    · subst hm; simp
    · simp [hm, Ne.symm hm]

/-! ### The data file -/

theorem readPage_writePages_images {f : Bytes} {pages : List (Nat × Bytes)} (h : ∀ e ∈ pages, e.2.length = pageSize)
    (n : Nat) : readPage (Pager.writePages f pages) n = imageAfter pages (readPage f n) n := by
  induction pages generalizing f with
  | nil => rfl
  | cons e pages ih =>
    show readPage (Pager.writePages (writePage f e.1 e.2) pages) n =
      imageAfter pages (if e.1 = n then e.2 else readPage f n) n
    rw [ih fun e he => h e (List.mem_cons_of_mem _ he), readPage_writePage (h e List.mem_cons_self)]
    simp only [eq_comm]

/-- A zero byte written past the end of the file is read where there was one already. -/
theorem readPage_extend {f : Bytes} {off : Nat} (h : f.length ≤ off) (n : Nat) :
    readPage (writeAt f off [0]) n = readPage f n := by
  refine ext_getD (by rw [length_readPage, length_readPage]) fun i => ?_
  rw [getD_readPage, getD_readPage, getD_writeAt]
  split
  · split
    · rename_i hin
      simp only [List.length_singleton] at hin
      rw [show n * pageSize + i - off = 0 by omega, List.getD_eq_default f _ (by omega)]
      rfl
    · rfl
  · rfl

theorem readPage_applyBatch {pages : List (Nat × Bytes)} (h : ∀ e ∈ pages, e.2.length = pageSize) (f : Bytes)
    (numPages n : Nat) : readPage (Wal.applyBatch f pages numPages) n = imageAfter pages (readPage f n) n := by
  rw [← readPage_writePages_images h]
  unfold Wal.applyBatch
  simp only
  split
  · exact readPage_extend (by omega) n
  · rfl

/-- The pages of the batches `bs` in the order they are written in. -/
def Batch.images (bs : List Batch) : List (Nat × Bytes) := bs.flatMap Batch.pages

@[simp] theorem Batch.images_nil : Batch.images [] = [] := rfl

theorem Batch.images_cons (b : Batch) (bs : List Batch) : Batch.images (b :: bs) = b.pages ++ Batch.images bs := by
  simp [Batch.images]

theorem Batch.images_append (bs bs' : List Batch) :
    Batch.images (bs ++ bs') = Batch.images bs ++ Batch.images bs' := by
  simp [Batch.images]

/-- A batch of one page. -/
def Batch.single (n : Nat) (data : Bytes) (numPages : Nat) (hn : n < Wal.commitPage) (hd : data.length = pageSize)
    (hnum : numPages < 256 ^ 4) : Batch where
  pages := [(n, data)]
  numPages := numPages
  sorted := List.pairwise_singleton _ _
  page_lt e he := by rw [List.mem_singleton.1 he]; exact hn
  page_length e he := by rw [List.mem_singleton.1 he]; exact hd
  numPages_lt := hnum

theorem readPage_applyAll (f : Bytes) (bs : List Batch) (n : Nat) :
    readPage (Batch.applyAll f bs) n = imageAfter (Batch.images bs) (readPage f n) n := by
  induction bs generalizing f with
  | nil => rfl
  | cons b bs ih =>
    show readPage (Batch.applyAll (Wal.applyBatch f b.pages b.numPages) bs) n = _
    rw [ih, readPage_applyBatch b.page_length, Batch.images_cons, imageAfter_append]

/-! ### The length of the data file -/

theorem Pager.length_le_writePages {images : List (Nat × Bytes)} (h : ∀ e ∈ images, e.2.length = pageSize) (f : Bytes) :
    f.length ≤ (Pager.writePages f images).length ∧ ∀ e ∈ images, (e.1 + 1) * pageSize ≤ (Pager.writePages f images).length := by
  induction images generalizing f with
  | nil => exact ⟨Nat.le_refl _, by simp⟩
  | cons e images ih =>
    obtain ⟨hle, hmem⟩ := ih (fun e he => h e (List.mem_cons_of_mem _ he)) (writePage f e.1 e.2)
    rw [length_writePage f e.1 (h e List.mem_cons_self)] at hle
    refine ⟨(Nat.le_max_left _ _).trans hle, fun e' he' => ?_⟩
    rcases List.mem_cons.1 he' with rfl | he'
    · exact (Nat.le_max_right _ _).trans hle
    · exact hmem e' he'

theorem Wal.length_le_applyBatch (db : Bytes) (pages : List (Nat × Bytes)) (numPages : Nat) :
    (Pager.writePages db pages).length ≤ (Wal.applyBatch db pages numPages).length ∧
      numPages * pageSize ≤ (Wal.applyBatch db pages numPages).length := by
  unfold Wal.applyBatch
  simp only
  split
  · rw [length_writeAt _ _ _ (List.cons_ne_nil _ _), List.length_singleton]
    omega
  · exact ⟨Nat.le_refl _, by omega⟩

theorem Batch.length_le_applyAll (db : Bytes) (bs : List Batch) : db.length ≤ (Batch.applyAll db bs).length ∧
    ∀ n ∈ (Batch.images bs).map Prod.fst, (n + 1) * pageSize ≤ (Batch.applyAll db bs).length := by
  induction bs generalizing db with
  | nil => exact ⟨Nat.le_refl _, by simp⟩
  | cons b bs ih =>
    obtain ⟨hle, hmem⟩ := ih (Wal.applyBatch db b.pages b.numPages)
    obtain ⟨hle', hmem'⟩ := Pager.length_le_writePages b.page_length db
    have hext := (Wal.length_le_applyBatch db b.pages b.numPages).1
    refine ⟨hle'.trans (hext.trans hle), fun n hn => ?_⟩
    rw [Batch.images_cons, List.map_append, List.mem_append] at hn
    rcases hn with hn | hn
    · obtain ⟨e, he, rfl⟩ := List.mem_map.1 hn
      exact (hmem' e he).trans (hext.trans hle)
    · exact hmem n hn

/-- The file has at least as many pages as every batch applied to it says. -/
theorem Batch.numPages_le_applyAll {bs : List Batch} {b : Batch} (hb : b ∈ bs) (db : Bytes) :
    b.numPages * pageSize ≤ (Batch.applyAll db bs).length := by
  induction bs generalizing db with
  | nil => cases hb
  | cons b' bs ih =>
    rcases List.mem_cons.1 hb with rfl | hb
    · exact (Wal.length_le_applyBatch db b.pages b.numPages).2.trans
        (Batch.length_le_applyAll (Wal.applyBatch db b.pages b.numPages) bs).1
    · exact ih hb _

end LeafDb
