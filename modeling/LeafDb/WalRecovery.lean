import LeafDb.Wal

/-!
# Reading a log back

A log is a header, the bytes of complete batches and a tail. The loop of `read_batches_from` goes through
the complete batches one after another and returns them as they were appended (`parse_blobs`); on a tail
that is a proper prefix of one more batch it stops without having met a commit record (`parse_torn`). The
loop of `recover` applies what that loop returns (`replay_eq_parse`).
-/

namespace LeafDb

namespace Batch

/-- The bytes `append_batch` adds to the log. -/
def blob (b : Batch) : Bytes :=
  b.pages.flatMap (fun e => Wal.frameBytes e.1 e.2) ++ Wal.frameBytes Wal.commitPage (packBE 4 b.numPages)

/-- The batches in `bs` applied to a data file, in order. -/
def applyAll (db : Bytes) (bs : List Batch) : Bytes :=
  bs.foldl (fun db b => Wal.applyBatch db b.pages b.numPages) db

theorem length_blob_pos (b : Batch) : 16 ≤ b.blob.length := by
  simp [blob, Wal.length_frameBytes]

end Batch

/-- The bytes of the batches `bs` in the log. -/
def blobs (bs : List Batch) : Bytes := bs.flatMap Batch.blob

@[simp] theorem blobs_nil : blobs [] = [] := rfl

@[simp] theorem blobs_append (bs bs' : List Batch) : blobs (bs ++ bs') = blobs bs ++ blobs bs' := by
  simp [blobs]

theorem blobs_cons (b : Batch) (bs : List Batch) : blobs (b :: bs) = b.blob ++ blobs bs := by
  simp [blobs]

theorem blobs_eq_nil {bs : List Batch} (h : blobs bs = []) : bs = [] := by
  cases bs with
  | nil => rfl
  | cons b bs =>
    have := b.length_blob_pos
    rw [blobs_cons] at h
    simp [(List.append_eq_nil_iff.1 h).1] at this

/-- A proper prefix, maybe empty, of the bytes of one batch. -/
def Torn (tail : Bytes) : Prop := ∃ (b : Batch) (k : Nat), k < b.blob.length ∧ tail = b.blob.take k

/-- A batch that writes page 1. -/
def onePage : Batch where
  pages := [(1, List.replicate pageSize 1)]
  numPages := 2
  sorted := by simp
  page_lt := by simp [Wal.commitPage]
  page_length := by simp
  numPages_lt := by norm_num

namespace Wal

/-! ### `append_batch` -/

theorem payload_lt {b : Batch} {e : Nat × Bytes} (he : e ∈ b.pages) : e.2.length < 256 ^ 4 := by
  rw [b.page_length e he]; exact pageSize_lt

theorem page_lt {b : Batch} {e : Nat × Bytes} (he : e ∈ b.pages) : e.1 < 256 ^ 4 :=
  Nat.lt_trans (b.page_lt e he) commitPage_lt

theorem frames_eq {pages : List (Nat × Bytes)} (h1 : ∀ e ∈ pages, e.1 < 256 ^ 4)
    (h2 : ∀ e ∈ pages, e.2.length < 256 ^ 4) :
    frames pages = .ok (pages.flatMap fun e => frameBytes e.1 e.2) := by
  induction pages with
  | nil => rfl
  | cons e pages ih =>
    obtain ⟨p, data⟩ := e
    rw [frames, frame_eq (h1 _ List.mem_cons_self) (h2 _ List.mem_cons_self),
      ih (fun e he => h1 e (List.mem_cons_of_mem _ he)) (fun e he => h2 e (List.mem_cons_of_mem _ he))]
    rfl

theorem insertionSort_pages {pages : List (Nat × Bytes)} (h : (pages.map Prod.fst).Pairwise (· < ·)) :
    pages.insertionSort (·.1 ≤ ·.1) = pages := by
  refine List.Pairwise.insertionSort_eq ?_
  rw [List.pairwise_map] at h
  exact h.imp Nat.le_of_lt

theorem length_packed (n : Nat) : (packBE 4 n).length < 256 ^ 4 := by simp

theorem appendBatch_eq (log : Bytes) (b : Batch) : appendBatch log b.pages b.numPages = .ok (log ++ b.blob) := by
  unfold appendBatch commitFrame
  rw [insertionSort_pages b.sorted, frames_eq (fun _ => page_lt) (fun _ => payload_lt), if_pos b.numPages_lt,
    frame_eq commitPage_lt (length_packed _)]
  simp [Batch.blob]

/-! ### Frames of pages -/

theorem unpackU32_packBE {n : Nat} (h : n < 256 ^ 4) : unpackU32 (packBE 4 n) = .ok n := by
  have := readBE_packBE 4 n 0 [] h
  simp only [List.append_nil, Nat.zero_mul, Nat.zero_add] at this
  rw [unpackU32, this]

theorem keys_foldl_insert (pages : List (Nat × Bytes)) (batch : AList fun _ : Nat => Bytes)
    (h : (pages.map Prod.fst).Pairwise (· < ·)) (hnot : ∀ e ∈ pages, e.1 ∉ batch) :
    (pages.foldl (fun d e => d.insert e.1 e.2) batch).keys = (pages.map Prod.fst).reverse ++ batch.keys := by
  induction pages generalizing batch with
  | nil => simp
  | cons e pages ih =>
    simp only [List.map_cons, List.pairwise_cons] at h
    have he : e.1 ∉ batch := hnot e List.mem_cons_self
    rw [List.foldl_cons, ih _ h.2]
    · rw [AList.keys_insert, List.erase_of_not_mem (fun hm => he (AList.mem_keys.2 hm))]
      simp
    · intro e' he' hm
      rcases (AList.mem_insert _).1 hm with heq | hm
      · exact Nat.lt_irrefl _ (heq ▸ h.1 e'.1 (List.mem_map_of_mem he'))
      · exact hnot e' (List.mem_cons_of_mem _ he') hm

theorem lookup_foldl_insert (pages : List (Nat × Bytes)) (batch : AList fun _ : Nat => Bytes)
    (h : (pages.map Prod.fst).Pairwise (· < ·)) {e : Nat × Bytes} (he : e ∈ pages) :
    (pages.foldl (fun d e => d.insert e.1 e.2) batch).lookup e.1 = some e.2 := by
  induction pages generalizing batch with
  | nil => cases he
  | cons e' pages ih =>
    simp only [List.map_cons, List.pairwise_cons] at h
    rw [List.foldl_cons]
    rcases List.mem_cons.1 he with rfl | he
    · have hkeep : ∀ (pages : List (Nat × Bytes)) (d : AList fun _ : Nat => Bytes),
          (∀ k ∈ pages.map Prod.fst, e.1 < k) → d.lookup e.1 = some e.2 →
          (pages.foldl (fun d e => d.insert e.1 e.2) d).lookup e.1 = some e.2 := by
        intro pages
        induction pages with
        | nil => exact fun _ _ hd => hd
        | cons e' pages ih =>
          intro d hk hd
          refine ih _ (fun k hk' => hk k (by simp_all)) ?_
          rw [AList.lookup_insert_ne (Nat.ne_of_lt (hk e'.1 (by simp)))]
          exact hd
      exact hkeep pages _ h.1 (AList.lookup_insert _)
    · exact ih _ h.2 he

/-- The dictionary filled from the frames of a batch has the batch's pages. -/
theorem sortedItems_foldl {pages : List (Nat × Bytes)} (h : (pages.map Prod.fst).Pairwise (· < ·)) :
    sortedItems (pages.foldl (fun d e => d.insert e.1 e.2) ∅) = pages := by
  have hkeys := keys_foldl_insert pages ∅ h (fun e _ he => AList.notMem_empty _ he)
  rw [AList.keys_empty, List.append_nil] at hkeys
  have hsort : (pages.map Prod.fst).reverse.insertionSort (· ≤ ·) = pages.map Prod.fst :=
    List.Perm.eq_of_pairwise (fun _ _ _ _ => Nat.le_antisymm) (List.pairwise_insertionSort _ _)
      (h.imp Nat.le_of_lt) ((List.perm_insertionSort _ _).trans (List.reverse_perm _))
  rw [sortedItems, hkeys, hsort, List.map_map]
  conv_rhs => rw [← List.map_id pages]
  refine List.map_congr_left fun e he => ?_
  simp [lookup_foldl_insert pages ∅ h he]

/-- The number of frames of the batches `bs`. -/
def rounds (bs : List Batch) : Nat := (bs.map fun b => b.pages.length + 1).sum

theorem rounds_le (bs : List Batch) : rounds bs ≤ (blobs bs).length := by
  induction bs with
  | nil => simp [rounds]
  | cons b bs ih =>
    have : b.pages.length + 1 ≤ b.blob.length := by
      have hle : ∀ pages : List (Nat × Bytes), pages.length ≤ (pages.flatMap fun e => frameBytes e.1 e.2).length := by
        intro pages
        induction pages with
        | nil => simp
        | cons e pages ih => simp only [List.flatMap_cons, List.length_append, List.length_cons, length_frameBytes]; omega
      have := hle b.pages
      simp only [Batch.blob, List.length_append, length_frameBytes]
      omega
    rw [blobs_cons, List.length_append]
    simp only [rounds, List.map_cons, List.sum_cons] at ih ⊢
    omega

/-! ### `read_batches_from` -/

/-- The batches `bs` at offset `pos` as `read_batches_from` returns them. -/
def located : Nat → List Batch → List (Nat × List (Nat × Bytes) × Nat)
  | _, [] => []
  | pos, b :: bs => (pos + b.blob.length, b.pages, b.numPages) :: located (pos + b.blob.length) bs

theorem parse_pages (pages : List (Nat × Bytes)) (h1 : ∀ e ∈ pages, e.1 < commitPage)
    (h2 : ∀ e ∈ pages, e.2.length < 256 ^ 4) (fuel : Nat) (rest : Bytes) (pos : Nat)
    (batch : AList fun _ : Nat => Bytes) :
    parse (fuel + pages.length) (pages.flatMap (fun e => frameBytes e.1 e.2) ++ rest) pos batch =
      parse fuel rest (pos + (pages.flatMap fun e => frameBytes e.1 e.2).length)
        (pages.foldl (fun d e => d.insert e.1 e.2) batch) := by
  induction pages generalizing batch pos with
  | nil => rfl
  | cons e pages ih =>
    have hlt := h1 e List.mem_cons_self
    rw [List.length_cons, ← Nat.add_assoc, parse, List.flatMap_cons, List.append_assoc,
      nextFrame_append (Nat.lt_trans hlt commitPage_lt) (h2 e List.mem_cons_self)]
    simp only [Nat.ne_of_lt hlt, if_false]
    rw [ih (fun e he => h1 e (List.mem_cons_of_mem _ he)) (fun e he => h2 e (List.mem_cons_of_mem _ he))]
    simp only [List.length_append, List.foldl_cons]
    congr 1; omega

theorem parse_blob (b : Batch) (fuel : Nat) (rest : Bytes) (pos : Nat) :
    parse (fuel + (b.pages.length + 1)) (b.blob ++ rest) pos ∅ =
      (parse fuel rest (pos + b.blob.length) ∅).map ((pos + b.blob.length, b.pages, b.numPages) :: ·) := by
  rw [← Nat.add_assoc, Nat.add_right_comm, Batch.blob, List.append_assoc,
    parse_pages b.pages b.page_lt (fun _ => payload_lt), parse,
    nextFrame_append commitPage_lt (length_packed _)]
  simp only [if_true, unpackU32_packBE b.numPages_lt, sortedItems_foldl b.sorted, List.length_append]
  rw [Nat.add_sub_cancel, Nat.add_assoc]

theorem parse_blobs (bs : List Batch) (fuel : Nat) (rest : Bytes) (pos : Nat) :
    parse (fuel + rounds bs) (blobs bs ++ rest) pos ∅ =
      (parse fuel rest (pos + (blobs bs).length) ∅).map (located pos bs ++ ·) := by
  induction bs generalizing pos with
  | nil =>
    show parse fuel rest pos ∅ = _
    simp only [blobs_nil, List.length_nil, Nat.add_zero, located, List.nil_append]
    cases parse fuel rest pos ∅ <;> rfl
  | cons b bs ih =>
    have hr : fuel + rounds (b :: bs) = fuel + rounds bs + (b.pages.length + 1) := by
      simp only [rounds, List.map_cons, List.sum_cons]; omega
    rw [hr, blobs_cons, List.append_assoc, parse_blob, ih, List.length_append, located, Nat.add_assoc]
    cases parse fuel rest (pos + (b.blob.length + (blobs bs).length)) ∅ <;> rfl

theorem parse_stop {data : Bytes} (h : nextFrame data = none) (fuel : Nat) (pos : Nat)
    (batch : AList fun _ : Nat => Bytes) : parse fuel data pos batch = .ok [] := by
  cases fuel with
  | zero => rfl
  | succ fuel => rw [parse, h]

/-! ### Torn tails -/

theorem take_flatMap_cases (pages : List (Nat × Bytes)) (c : Bytes) (k : Nat)
    (hk : k < (pages.flatMap (fun e => frameBytes e.1 e.2) ++ c).length) :
    ∃ (n : Nat) (f : Bytes) (j : Nat), f ∈ (pages.map fun e => frameBytes e.1 e.2) ++ [c] ∧ j < f.length ∧
      (pages.flatMap (fun e => frameBytes e.1 e.2) ++ c).take k =
        (pages.take n).flatMap (fun e => frameBytes e.1 e.2) ++ f.take j := by
  induction pages generalizing k with
  | nil => exact ⟨0, c, k, by simp, by simpa using hk, by simp⟩
  | cons e pages ih =>
    simp only [List.flatMap_cons, List.append_assoc] at hk ⊢
    by_cases hlt : k < (frameBytes e.1 e.2).length
    · exact ⟨0, frameBytes e.1 e.2, k, by simp, hlt, by simp [List.take_append_of_le_length hlt.le]⟩
    · rw [List.length_append] at hk
      obtain ⟨n, f, j, hf, hj, heq⟩ := ih (k - (frameBytes e.1 e.2).length) (by omega)
      refine ⟨n + 1, f, j, by simp only [List.map_cons, List.cons_append, List.mem_cons]; exact .inr hf, hj, ?_⟩
      rw [List.take_append, List.take_of_length_le (by omega), heq]
      simp

/-- A proper prefix of a batch is complete frames of its pages and a proper prefix of one more frame. -/
theorem torn_cases {tail : Bytes} (h : Torn tail) :
    ∃ (pages : List (Nat × Bytes)) (cut : Bytes), tail = pages.flatMap (fun e => frameBytes e.1 e.2) ++ cut ∧
      nextFrame cut = none ∧ (∀ e ∈ pages, e.1 < commitPage) ∧ ∀ e ∈ pages, e.2.length = pageSize := by
  obtain ⟨b, k, hk, rfl⟩ := h
  obtain ⟨n, f, j, hf, hj, heq⟩ := take_flatMap_cases b.pages _ k hk
  refine ⟨b.pages.take n, f.take j, heq, ?_, fun e he => b.page_lt e (List.mem_of_mem_take he),
    fun e he => b.page_length e (List.mem_of_mem_take he)⟩
  rcases List.mem_append.1 hf with hf | hf
  · obtain ⟨e, he, rfl⟩ := List.mem_map.1 hf
    exact nextFrame_take (payload_lt he) hj
  · rw [List.mem_singleton.1 hf] at hj ⊢
    exact nextFrame_take (length_packed _) hj

theorem parse_torn {tail : Bytes} (h : Torn tail) (fuel : Nat) (pos : Nat) : parse fuel tail pos ∅ = .ok [] := by
  obtain ⟨pages, cut, rfl, hcut, h1, h2⟩ := torn_cases h
  have hpages : ∀ (pages : List (Nat × Bytes)) (fuel pos : Nat) (batch : AList fun _ : Nat => Bytes),
      (∀ e ∈ pages, e.1 < commitPage) → (∀ e ∈ pages, e.2.length < 256 ^ 4) →
      parse fuel (pages.flatMap (fun e => frameBytes e.1 e.2) ++ cut) pos batch = .ok [] := by
    intro pages
    induction pages with
    | nil => exact fun fuel pos batch _ _ => parse_stop hcut fuel pos batch
    | cons e pages ih =>
      intro fuel pos batch h1 h2
      cases fuel with
      | zero => rfl
      | succ fuel =>
        have hlt := h1 e List.mem_cons_self
        rw [parse, List.flatMap_cons, List.append_assoc,
          nextFrame_append (Nat.lt_trans hlt commitPage_lt) (h2 e List.mem_cons_self)]
        simp only [Nat.ne_of_lt hlt, if_false]
        exact ih fuel _ _ (fun e he => h1 e (List.mem_cons_of_mem _ he)) (fun e he => h2 e (List.mem_cons_of_mem _ he))
  exact hpages pages fuel pos ∅ h1 fun e he => h2 e he ▸ pageSize_lt

theorem torn_nil : Torn [] := by
  refine ⟨⟨[], 0, by simp, by simp, by simp, by norm_num⟩, 0, ?_, rfl⟩
  exact Nat.lt_of_lt_of_le (by norm_num) (Batch.length_blob_pos _)

/-- Behind a batch boundary the loop delivers the complete batches of the log and nothing of a torn tail. -/
theorem parse_eq {bs : List Batch} {tail : Bytes} (ht : Torn tail) {fuel : Nat} (hfuel : rounds bs ≤ fuel) (pos : Nat) :
    parse fuel (blobs bs ++ tail) pos ∅ = .ok (located pos bs) := by
  obtain ⟨k, rfl⟩ := Nat.exists_eq_add_of_le hfuel
  rw [Nat.add_comm, parse_blobs, parse_torn ht]
  simp [Except.map]

theorem located_inj {pos : Nat} {bs bs' : List Batch} (h : located pos bs = located pos bs') : bs = bs' := by
  induction bs generalizing pos bs' with
  | nil =>
    cases bs' with
    | nil => rfl
    | cons b' bs' => cases h
  | cons b bs ih =>
    cases bs' with
    | nil => cases h
    | cons b' bs' =>
      simp only [located, List.cons.injEq, Prod.mk.injEq] at h
      obtain ⟨⟨-, hp, hn⟩, hrest⟩ := h
      obtain rfl : b = b' := Batch.ext hp hn
      rw [ih hrest]

/-- The complete batches of a log are determined by its bytes. -/
theorem blobs_inj {bs bs' : List Batch} {tail tail' : Bytes} (h : blobs bs ++ tail = blobs bs' ++ tail')
    (ht : Torn tail) (ht' : Torn tail') : bs = bs' ∧ tail = tail' := by
  have h1 := parse_eq ht (Nat.le_max_left (rounds bs) (rounds bs')) 0
  rw [h, parse_eq ht' (Nat.le_max_right _ _)] at h1
  obtain rfl : bs = bs' := located_inj (Except.ok.inj h1).symm
  exact ⟨rfl, List.append_cancel_left h⟩

/-! ### `recover` -/

/-- `recover` is the loop of `read_batches_from` with every batch applied as it is found. -/
theorem replay_eq_parse (fuel : Nat) (data db : Bytes) (batch : AList fun _ : Nat => Bytes) (applied pos : Nat) :
    replay fuel data db batch applied = (parse fuel data pos batch).map fun l =>
      (l.foldl (fun db e => applyBatch db e.2.1 e.2.2) db, applied + l.length) := by
  induction fuel generalizing data db batch applied pos with
  | zero => rfl
  | succ fuel ih =>
    rw [replay, parse]
    cases nextFrame data with
    | none => rfl
    | some f =>
      obtain ⟨pageNo, payload, rest⟩ := f
      simp only
      split
      · cases unpackU32 payload with
        | error e => rfl
        | ok numPages =>
          simp only
          rw [ih rest _ _ _ (pos + (data.length - rest.length))]
          cases parse fuel rest (pos + (data.length - rest.length)) ∅ with
          | error e => rfl
          | ok l => simp only [Except.map, List.foldl_cons, List.length_cons, Nat.add_assoc, Nat.add_comm 1]
      · exact ih ..

theorem foldl_located (pos : Nat) (bs : List Batch) (db : Bytes) :
    (located pos bs).foldl (fun db e => applyBatch db e.2.1 e.2.2) db = Batch.applyAll db bs := by
  induction bs generalizing pos db with
  | nil => rfl
  | cons b bs ih =>
    rw [located, List.foldl_cons, ih]
    rfl

theorem length_located (pos : Nat) (bs : List Batch) : (located pos bs).length = bs.length := by
  induction bs generalizing pos with
  | nil => rfl
  | cons b bs ih => rw [located, List.length_cons, ih, List.length_cons]

/-- Recovery applies exactly the complete batches of the log, in order. -/
theorem recover_eq {log : Bytes} {bs : List Batch} {tail : Bytes}
    (h : log.drop header.length = blobs bs ++ tail) (ht : Torn tail) (db : Bytes) :
    recover log db = .ok (Batch.applyAll db bs, bs.length) := by
  have hr : rounds bs ≤ log.length := by
    have hlen := congrArg List.length h
    rw [List.length_drop, List.length_append] at hlen
    exact (rounds_le bs).trans (by omega)
  unfold recover
  split
  · rename_i hle
    rw [List.drop_of_length_le hle] at h
    obtain rfl : bs = [] := blobs_eq_nil (List.append_eq_nil_iff.1 h.symm).1
    rfl
  · rw [replay_eq_parse _ _ _ _ _ 0, h, parse_eq ht hr]
    simp only [Except.map, foldl_located, length_located, Nat.zero_add]

/-- Polling a log of complete batches from a batch boundary up to its end, or any later offset, delivers
the batches from there on. -/
theorem readBatchesFrom_eq {log : Bytes} {offset stop : Nat} {bs : List Batch} (hlog : log.drop offset = blobs bs)
    (hstop : log.length ≤ stop) : readBatchesFrom log offset stop = .ok (located offset bs) := by
  unfold readBatchesFrom
  split
  · rename_i hle
    rw [List.drop_of_length_le (hstop.trans hle)] at hlog
    obtain rfl : bs = [] := blobs_eq_nil hlog.symm
    rfl
  · have hread : readAt log offset (stop - offset) = blobs bs := by
      rw [readAt, List.take_of_length_le (by simp; omega), hlog]
    have := parse_eq torn_nil (rounds_le bs) offset
    rw [List.append_nil] at this
    simp only [hread]
    exact this

end Wal

end LeafDb
