import LeafDb.Base.Run
import LeafDb.Committed

/-!
# Prefixes of a log

`append_batch` takes a dictionary of page images, in any order, and what it appends is the bytes of a `Batch`.
A prefix of the log of some batches is the log of the first ones of them, the complete ones, and a torn tail
(`take_blobs`). Recovery of such a prefix and a poll of it both deliver the complete batches.

A reader that polls a growing log (`Poll`) stands at a batch boundary after every poll.
-/

namespace LeafDb

/-- What `append_batch` is called with: the images of distinct pages below the commit record's number. -/
structure IsBatch (w : List (Nat × Bytes) × Nat) : Prop where
  nodup : (w.1.map Prod.fst).Nodup
  page_lt : ∀ e ∈ w.1, e.1 < Wal.commitPage
  page_length : ∀ e ∈ w.1, e.2.length = pageSize

/-- The items of a dictionary in the order of `sorted`. -/
def sortPages (pages : List (Nat × Bytes)) : List (Nat × Bytes) := pages.insertionSort (·.1 ≤ ·.1)

namespace Wal

/-- One `append_batch` after another. -/
def appendAll : Bytes → List (List (Nat × Bytes) × Nat) → Except PyError Bytes
  | log, [] => .ok log
  | log, (pages, numPages) :: ws =>
    match appendBatch log pages numPages with
    | .error e => .error e
    | .ok log => appendAll log ws

/-! ### What is appended -/

theorem sorted_sortPages {w : List (Nat × Bytes) × Nat} (h : IsBatch w) :
    ((sortPages w.1).map Prod.fst).Pairwise (· < ·) := by
  have hperm : (sortPages w.1).Perm w.1 := List.perm_insertionSort _ _
  have hnodup := (hperm.map Prod.fst).nodup_iff.2 h.nodup
  have hle : ((sortPages w.1).map Prod.fst).Pairwise (· ≤ ·) :=
    List.pairwise_map.2 (List.pairwise_insertionSort (fun a b : Nat × Bytes => a.1 ≤ b.1) w.1)
  exact (hle.and hnodup).imp fun h => Nat.lt_of_le_of_ne h.1 h.2

/-- A batch that was appended, with its pages in order. -/
theorem exists_batch_of_append {w : List (Nat × Bytes) × Nat} (h : IsBatch w) {log log' : Bytes}
    (ha : appendBatch log w.1 w.2 = .ok log') :
    ∃ b : Batch, log' = log ++ b.blob ∧ b.pages = sortPages w.1 ∧ b.numPages = w.2 := by
  have hnum : w.2 < 256 ^ 4 := by
    by_contra hn
    unfold appendBatch commitFrame at ha
    rw [if_neg hn] at ha
    split at ha <;> simp_all
  have hmem : ∀ e, e ∈ sortPages w.1 ↔ e ∈ w.1 := fun e => (List.perm_insertionSort _ _).mem_iff
  refine ⟨⟨sortPages w.1, w.2, sorted_sortPages h, fun e he => h.page_lt e ((hmem e).1 he),
    fun e he => h.page_length e ((hmem e).1 he), hnum⟩, ?_, rfl, rfl⟩
  have hb := appendBatch_eq log ⟨sortPages w.1, w.2, sorted_sortPages h, fun e he => h.page_lt e ((hmem e).1 he),
    fun e he => h.page_length e ((hmem e).1 he), hnum⟩
  -- sorting twice is sorting once
  have hsame : appendBatch log (sortPages w.1) w.2 = appendBatch log w.1 w.2 := by
    unfold appendBatch
    rw [insertionSort_pages (sorted_sortPages h)]
    rfl
  rw [hsame, ha] at hb
  exact Except.ok.inj hb

theorem exists_batches {ws : List (List (Nat × Bytes) × Nat)} (h : ∀ w ∈ ws, IsBatch w) {log log' : Bytes}
    (ha : appendAll log ws = .ok log') :
    ∃ bs : List Batch, log' = log ++ blobs bs ∧
      bs.map (fun b => (b.pages, b.numPages)) = ws.map fun w => (sortPages w.1, w.2) := by
  induction ws generalizing log with
  | nil =>
    cases ha
    exact ⟨[], by simp, rfl⟩
  | cons w ws ih =>
    unfold appendAll at ha
    split at ha
    · cases ha
    · rename_i log1 h1
      obtain ⟨b, rfl, hpages, hnum⟩ := exists_batch_of_append (h w List.mem_cons_self) h1
      obtain ⟨bs, rfl, hbs⟩ := ih (fun w hw => h w (List.mem_cons_of_mem _ hw)) ha
      refine ⟨b :: bs, by rw [blobs_cons, List.append_assoc], ?_⟩
      rw [List.map_cons, List.map_cons, hbs, hpages, hnum]

theorem imageAfter_of_nodup {pages : List (Nat × Bytes)} (h : (pages.map Prod.fst).Nodup) {e : Nat × Bytes}
    (he : e ∈ pages) (c : Bytes) : imageAfter pages c e.1 = e.2 := by
  induction pages generalizing c with
  | nil => cases he
  | cons e' pages ih =>
    rw [List.map_cons, List.nodup_cons] at h
    show imageAfter pages (if e'.1 = e.1 then e'.2 else c) e.1 = e.2
    rcases List.mem_cons.1 he with rfl | he
    · rw [if_pos rfl, imageAfter_of_notMem h.1]
    · exact ih h.2 he _

/-- In which order a dictionary is written does not matter. -/
theorem imageAfter_sortPages {w : List (Nat × Bytes) × Nat} (h : IsBatch w) (c : Bytes) (n : Nat) :
    imageAfter (sortPages w.1) c n = imageAfter w.1 c n := by
  have hperm : (sortPages w.1).Perm w.1 := List.perm_insertionSort _ _
  by_cases hn : n ∈ w.1.map Prod.fst
  · obtain ⟨e, he, rfl⟩ := List.mem_map.1 hn
    rw [imageAfter_of_nodup h.nodup he, imageAfter_of_nodup ((hperm.map Prod.fst).nodup_iff.2 h.nodup) (hperm.mem_iff.2 he)]
  · rw [imageAfter_of_notMem hn, imageAfter_of_notMem fun hm => hn ((hperm.map Prod.fst).mem_iff.1 hm)]

theorem imageAfter_images {bs : List Batch} {ws : List (List (Nat × Bytes) × Nat)} (h : ∀ w ∈ ws, IsBatch w)
    (hbs : bs.map (fun b => (b.pages, b.numPages)) = ws.map fun w => (sortPages w.1, w.2)) (c : Bytes) (n : Nat) :
    imageAfter (Batch.images bs) c n = imageAfter (ws.flatMap Prod.fst) c n := by
  induction bs generalizing ws c with
  | nil =>
    obtain rfl : ws = [] := List.map_eq_nil_iff.1 hbs.symm
    rfl
  | cons b bs ih =>
    cases ws with
    | nil => cases hbs
    | cons w ws =>
      rw [List.map_cons, List.map_cons, List.cons.injEq, Prod.mk.injEq] at hbs
      rw [Batch.images_cons, List.flatMap_cons, imageAfter_append, imageAfter_append, hbs.1.1,
        imageAfter_sortPages (h w List.mem_cons_self)]
      exact ih (fun w hw => h w (List.mem_cons_of_mem _ hw)) hbs.2 _

/-! ### Prefixes -/

/-- A prefix of a log of batches: the complete ones and a torn tail. -/
theorem take_blobs (bs : List Batch) (k : Nat) :
    ∃ m ≤ bs.length, (∀ j ≤ bs.length, (blobs (bs.take j)).length ≤ k ↔ j ≤ m) ∧
      ∃ tail, Torn tail ∧ (blobs bs).take k = blobs (bs.take m) ++ tail := by
  induction bs generalizing k with
  | nil => exact ⟨0, Nat.le_refl _, by simp, [], torn_nil, by simp⟩
  | cons b bs ih =>
    by_cases hk : k < b.blob.length
    · refine ⟨0, Nat.zero_le _, fun j hj => ?_, b.blob.take k, ⟨b, k, hk, rfl⟩, ?_⟩
      · cases j with
        | zero => simp
        | succ j =>
          rw [List.take_succ_cons, blobs_cons, List.length_append]
          omega
      · rw [blobs_cons, List.take_append_of_le_length hk.le]
        rfl
    · obtain ⟨m, hm, hj, tail, htorn, htake⟩ := ih (k - b.blob.length)
      refine ⟨m + 1, Nat.succ_le_succ hm, fun j hle => ?_, tail, htorn, ?_⟩
      · cases j with
        | zero => simp
        | succ j =>
          rw [List.take_succ_cons, blobs_cons, List.length_append, Nat.succ_le_succ_iff, ← hj j (Nat.le_of_succ_le_succ hle)]
          omega
      · rw [blobs_cons, List.take_append, List.take_of_length_le (Nat.not_lt.1 hk), htake, List.take_succ_cons,
          blobs_cons, List.append_assoc]

theorem eq_of_map_eq {bs bs' : List Batch}
    (h : bs.map (fun b => (b.pages, b.numPages)) = bs'.map fun b => (b.pages, b.numPages)) : bs = bs' := by
  refine List.map_injective_iff.2 (fun b b' hb => ?_) h
  exact Batch.ext (Prod.mk.inj hb).1 (Prod.mk.inj hb).2

/-- A poll returns the complete batches of what it reads. -/
theorem readBatchesFrom_torn {log : Bytes} {offset stop : Nat} {bs : List Batch} {tail : Bytes}
    (h : readAt log offset (stop - offset) = blobs bs ++ tail) (ht : Torn tail) :
    readBatchesFrom log offset stop = .ok (located offset bs) := by
  unfold readBatchesFrom
  split
  · rename_i hle
    rw [Nat.sub_eq_zero_of_le hle, readAt, List.take_zero] at h
    obtain rfl : bs = [] := blobs_eq_nil (List.append_eq_nil_iff.1 h.symm).1
    rfl
  · simp only [h]
    exact parse_eq ht ((rounds_le bs).trans (by simp)) offset

theorem map_located (pos : Nat) (bs : List Batch) :
    (located pos bs).map Prod.snd = bs.map fun b => (b.pages, b.numPages) := by
  induction bs generalizing pos with
  | nil => rfl
  | cons b bs ih => rw [located, List.map_cons, List.map_cons, ih]

/-- Recovery of a log cut off behind its header applies exactly the batches that are complete, and a poll of it
from the header on returns them. -/
theorem recover_take {ws : List (List (Nat × Bytes) × Nat)} (h : ∀ w ∈ ws, IsBatch w) {log : Bytes}
    (hlog : appendAll header ws = .ok log) (db : Bytes) {k : Nat} (hk : header.length ≤ k) :
    ∃ m ≤ ws.length, (∀ j ≤ ws.length, ∀ l, appendAll header (ws.take j) = .ok l → (l.length ≤ k ↔ j ≤ m)) ∧
      ∃ db' batches, recover (log.take k) db = .ok (db', m) ∧
        (∀ n, readPage db' n = imageAfter ((ws.take m).flatMap Prod.fst) (readPage db n) n) ∧
        db.length ≤ db'.length ∧ (∀ w ∈ ws.take m, w.2 * pageSize ≤ db'.length) ∧
        readBatchesFrom (log.take k) header.length (log.take k).length = .ok batches ∧
        batches.map Prod.snd = (ws.take m).map (fun w => (sortPages w.1, w.2)) ∧
        batches.foldl (fun db e => applyBatch db e.2.1 e.2.2) db = db' := by
  obtain ⟨bs, rfl, hbs⟩ := exists_batches h hlog
  obtain ⟨m, hm, hj, tail, htorn, htake⟩ := take_blobs bs (k - header.length)
  have hlen : bs.length = ws.length := by
    have := congrArg List.length hbs
    simpa using this
  have htakes : ∀ j, (bs.take j).map (fun b => (b.pages, b.numPages)) = (ws.take j).map fun w => (sortPages w.1, w.2) :=
    fun j => by rw [List.map_take, List.map_take, hbs]
  have hws : ∀ j, ∀ w ∈ ws.take j, IsBatch w := fun j w hw => h w (List.mem_of_mem_take hw)
  have hdrop : ((header ++ blobs bs).take k).drop header.length = blobs (bs.take m) ++ tail := by
    rw [List.drop_take, List.drop_left, htake]
  refine ⟨m, hlen ▸ hm, fun j hle l hl => ?_, Batch.applyAll db (bs.take m), located header.length (bs.take m), ?_, ?_,
    ?_, fun w hw => ?_, ?_, ?_, foldl_located _ _ _⟩
  · obtain ⟨bs', rfl, hbs'⟩ := exists_batches (hws j) hl
    obtain rfl := eq_of_map_eq (hbs'.trans (htakes j).symm)
    rw [← hj j (hlen ▸ hle), List.length_append]
    omega
  · rw [recover_eq hdrop htorn, List.length_take_of_le hm]
  · intro n
    rw [readPage_applyAll, imageAfter_images (hws m) (htakes m)]
  · exact (Batch.length_le_applyAll db (bs.take m)).1
  · have hmem := List.mem_map_of_mem (f := fun w : List (Nat × Bytes) × Nat => (sortPages w.1, w.2)) hw
    rw [← htakes m] at hmem
    obtain ⟨b, hb, heq⟩ := List.mem_map.1 hmem
    rw [← (Prod.mk.inj heq).2]
    exact Batch.numPages_le_applyAll hb db
  · refine readBatchesFrom_torn ?_ htorn
    rw [readAt, hdrop, List.take_of_length_le]
    rw [← hdrop, List.length_drop]
  · rw [map_located, htakes]

theorem isBatch_marked : IsBatch ([(1, padTo pageSize [1])], 2) where
  nodup := List.nodup_singleton 1
  page_lt e he := by rw [List.mem_singleton.1 he]; decide
  page_length e he := by rw [List.mem_singleton.1 he]; exact length_padTo (by decide)

theorem appendAll_marked : ∃ log, appendAll header [([(1, padTo pageSize [1])], 2)] = .ok log := by
  have h := appendBatch_eq header (.single 1 (padTo pageSize [1]) 2 (by decide) (length_padTo (by decide)) (by norm_num))
  unfold appendAll
  exact ⟨_, by rw [show appendBatch header [(1, padTo pageSize [1])] 2 = _ from h]; rfl⟩

/-- A log of one batch, cut off 20 bytes behind its header. -/
theorem recover_take_marked : ∃ log m db', appendAll header [([(1, padTo pageSize [1])], 2)] = .ok log ∧ m ≤ 1 ∧
    (log.length ≤ 30 ↔ 1 ≤ m) ∧ recover (log.take 30) [] = .ok (db', m) := by
  obtain ⟨log, hlog⟩ := appendAll_marked
  obtain ⟨m, hm, hj, db', batches, hrec, -⟩ := recover_take (fun w hw => List.mem_singleton.1 hw ▸ isBatch_marked) hlog []
    (k := 30) (by decide)
  exact ⟨log, m, db', hlog, hm, hj 1 (Nat.le_refl _) log hlog, hrec⟩

end Wal

/-! ### Polling -/

/-- A reader of a log that is being written: the log's size so far, the reader's offset and what its polls returned. -/
structure Poll where
  size : Nat
  offset : Nat
  got : List (List (Nat × Bytes) × Nat)

namespace Poll

inductive Action
  /-- The log grows to the given size, wherever in a batch that is. -/
  | grow (size : Nat)
  /-- `read_batches_from(offset, stop)`. -/
  | poll (stop : Nat)

/-- `log` is all that is ever appended; the file is the part of it that is written. -/
def step (log : Bytes) (s : Poll) : Action → Option Poll
  | .grow size => if s.size ≤ size ∧ size ≤ log.length then some { s with size := size } else none
  | .poll stop =>
    if s.offset ≤ stop ∧ stop ≤ s.size then
      match Wal.readBatchesFrom (log.take s.size) s.offset stop with
      | .error _ => none
      | .ok batches => some { s with
          offset := (batches.getLast?.map Prod.fst).getD s.offset
          got := s.got ++ batches.map Prod.snd }
    else none

theorem offset_located (pos : Nat) (bs : List Batch) :
    ((Wal.located pos bs).getLast?.map Prod.fst).getD pos = pos + (blobs bs).length := by
  induction bs generalizing pos with
  | nil => rfl
  | cons b bs ih =>
    rw [Wal.located, blobs_cons, List.length_append, ← Nat.add_assoc, ← ih (pos + b.blob.length), List.getLast?_cons]
    cases (Wal.located (pos + b.blob.length) bs).getLast? <;> rfl

/-- The reader got the batches `got` of the log's batches `pre ++ got ++ left` and stands behind them. -/
structure Got (pre got left : List Batch) (s : Poll) : Prop where
  got_eq : s.got = got.map fun b => (b.pages, b.numPages)
  offset_eq : s.offset = Wal.header.length + (blobs (pre ++ got)).length

variable {pre got left : List Batch} {s t : Poll}

/-- What a poll returns: the batches complete at its end. -/
theorem step_poll (h : Got pre got left s) {stop : Nat} (hstop : s.offset ≤ stop) (hsize : stop ≤ s.size) :
    ∃ m ≤ left.length, (∀ j ≤ left.length, (blobs (left.take j)).length ≤ stop - s.offset ↔ j ≤ m) ∧
      ∃ t, step (Wal.header ++ blobs (pre ++ got ++ left)) s (.poll stop) = some t ∧
        Got pre (got ++ left.take m) (left.drop m) t := by
  obtain ⟨m, hm, hj, tail, htorn, htake⟩ := Wal.take_blobs left (stop - s.offset)
  have hread : readAt ((Wal.header ++ blobs (pre ++ got ++ left)).take s.size) s.offset (stop - s.offset) =
      blobs (left.take m) ++ tail := by
    have hdrop : (Wal.header ++ blobs (pre ++ got ++ left)).drop s.offset = blobs left := by
      rw [h.offset_eq, blobs_append (pre ++ got), ← List.append_assoc, List.drop_left' (by simp)]
    rw [readAt, List.drop_take, hdrop, List.take_take, Nat.min_eq_left (by omega), htake]
  have hpoll := Wal.readBatchesFrom_torn hread htorn
  refine ⟨m, hm, hj, { s with
    offset := ((Wal.located s.offset (left.take m)).getLast?.map Prod.fst).getD s.offset
    got := s.got ++ (Wal.located s.offset (left.take m)).map Prod.snd }, ?_, ?_, ?_⟩
  · simp only [step, hpoll, hstop, hsize, and_self, if_true]
  · show s.got ++ _ = _
    rw [Wal.map_located, h.got_eq, List.map_append]
  · show ((Wal.located s.offset (left.take m)).getLast?.map Prod.fst).getD s.offset = _
    rw [offset_located, h.offset_eq, ← List.append_assoc, blobs_append (pre ++ got), List.length_append, Nat.add_assoc]

theorem prefix_of_length_le {as bs cs : List Batch} (ha : as <+: cs) (hb : bs <+: cs)
    (hle : (blobs as).length ≤ (blobs bs).length) : as <+: bs := by
  rcases List.prefix_or_prefix_of_prefix ha hb with h | ⟨d, rfl⟩
  · exact h
  · rw [blobs_append, List.length_append] at hle
    obtain rfl : d = [] := blobs_eq_nil (List.eq_nil_of_length_eq_zero (by omega))
    simp

/-- A poll that ends where a batch ends returns everything up to there. -/
theorem got_of_complete {m stop : Nat} {cs : List Batch} (h : Got pre got left s)
    (hj : ∀ j ≤ left.length, (blobs (left.take j)).length ≤ stop - s.offset ↔ j ≤ m) (hm : m ≤ left.length)
    (hcs : cs <+: got ++ left) (hstop : s.offset ≤ stop) (heq : stop = Wal.header.length + (blobs (pre ++ cs)).length) :
    got ++ left.take m = cs := by
  have hoff : stop - s.offset + (blobs got).length = (blobs cs).length := by
    have := h.offset_eq
    simp only [blobs_append, List.length_append] at this heq
    omega
  have hle : got ++ left.take m <+: cs := by
    refine prefix_of_length_le ⟨left.drop m, by simp⟩ hcs ?_
    have := (hj m hm).2 (Nat.le_refl m)
    rw [blobs_append, List.length_append]
    omega
  obtain ⟨c, rfl⟩ : got <+: cs := (List.prefix_append got _).trans hle
  have hc : c <+: left := (List.prefix_append_right_inj got).1 hcs
  have hlen : c.length ≤ m := by
    refine (hj c.length hc.length_le).1 ?_
    rw [← List.prefix_iff_eq_take.1 hc]
    rw [blobs_append, List.length_append] at hoff
    omega
  refine hle.eq_of_length_le ?_
  rw [List.length_append, List.length_append, List.length_take_of_le hm]
  omega

/-- Whatever the reader polls while the log grows, it gets the batches one after another, each once and whole; a poll
never raises, and one that ends where a batch ends returns everything up to there. -/
theorem got_prefix {ws ws' : List (List (Nat × Bytes) × Nat)} (h : ∀ w ∈ ws ++ ws', IsBatch w) {log start : Bytes}
    {size : Nat} (hstart : Wal.appendAll Wal.header ws = .ok start) (hlog : Wal.appendAll start ws' = .ok log)
    {as : List Action} (hrun : Run (step log) (fun _ _ => True) ⟨size, start.length, []⟩ as s) :
    s.got <+: ws'.map (fun w => (sortPages w.1, w.2)) ∧
      ∀ stop, s.offset ≤ stop → stop ≤ s.size → ∃ t, s.step log (.poll stop) = some t ∧
        ∀ vs l, vs <+: ws' → Wal.appendAll start vs = .ok l → stop = l.length →
          t.got = vs.map fun w => (sortPages w.1, w.2) := by
  obtain ⟨pre, rfl, -⟩ := Wal.exists_batches (fun w hw => h w (List.mem_append_left _ hw)) hstart
  have hws' : ∀ w ∈ ws', IsBatch w := fun w hw => h w (List.mem_append_right _ hw)
  obtain ⟨bs, rfl, hbs⟩ := Wal.exists_batches hws' hlog
  obtain ⟨got, left, rfl, hgot⟩ : ∃ got left, bs = got ++ left ∧ Got pre got left s := by
    refine hrun.invariant (P := fun s => ∃ got left, bs = got ++ left ∧ Got pre got left s) ?_
      ⟨[], bs, rfl, rfl, by simp⟩
    rintro s a t ⟨got, left, rfl, hgot⟩ - ht
    cases a with
    | grow size =>
      simp only [step] at ht
      split at ht
      · cases ht
        exact ⟨got, left, rfl, hgot.got_eq, hgot.offset_eq⟩
      · cases ht
    | poll stop =>
      have hin : s.offset ≤ stop ∧ stop ≤ s.size := by
        simp only [step] at ht
        split at ht
        · assumption
        · cases ht
      obtain ⟨m, -, -, t', ht', hgot'⟩ := step_poll hgot hin.1 hin.2
      rw [List.append_assoc pre, blobs_append, ← List.append_assoc] at ht'
      obtain rfl := Option.some.inj (ht.symm.trans ht')
      exact ⟨_, _, by rw [List.append_assoc, List.take_append_drop], hgot'⟩
  refine ⟨?_, fun stop hstop hsize => ?_⟩
  · rw [← hbs, hgot.got_eq, List.map_append]
    exact List.prefix_append _ _
  · obtain ⟨m, hm, hj, t, ht, hgot'⟩ := step_poll hgot hstop hsize
    rw [List.append_assoc pre, blobs_append, ← List.append_assoc] at ht
    refine ⟨t, ht, fun vs l hvs hl heq => ?_⟩
    obtain ⟨cs, rfl, hcs⟩ := Wal.exists_batches (fun w hw => hws' w (hvs.subset hw)) hl
    have hprefix : cs <+: got ++ left := by
      obtain ⟨us, rfl⟩ := hvs
      have hsplit : (vs ++ us).map (fun w => (sortPages w.1, w.2)) =
          cs.map (fun b => (b.pages, b.numPages)) ++ us.map fun w => (sortPages w.1, w.2) := by
        rw [List.map_append, hcs]
      have htake := (congrArg (List.take cs.length) (hbs.trans hsplit)).trans (List.take_left' (List.length_map _))
      rw [← List.map_take] at htake
      rw [← Wal.eq_of_map_eq htake]
      exact List.take_prefix _ _
    have := got_of_complete hgot hj hm hprefix hstop (by
      rw [heq, blobs_append]
      simp only [List.length_append, Nat.add_assoc])
    rw [hgot'.got_eq, this, hcs]

/-- A poll of a log of one batch. -/
theorem got_prefix_marked : ∃ log s t, Wal.appendAll Wal.header [([(1, padTo pageSize [1])], 2)] = .ok log ∧
    Run (step log) (fun _ _ => True) ⟨Wal.header.length, Wal.header.length, []⟩ [.grow log.length] s ∧
    s.step log (.poll log.length) = some t ∧ t.got = [([(1, padTo pageSize [1])], 2)] := by
  obtain ⟨log, hlog⟩ := Wal.appendAll_marked
  have hw : ∀ w ∈ [] ++ [([(1, padTo pageSize [1])], 2)], IsBatch w := fun w hw =>
    List.mem_singleton.1 hw ▸ Wal.isBatch_marked
  have hle : Wal.header.length ≤ log.length := by
    obtain ⟨bs, rfl, -⟩ := Wal.exists_batches hw hlog
    simp
  have hrun : Run (step log) (fun _ _ => True) ⟨Wal.header.length, Wal.header.length, []⟩ [.grow log.length]
      ⟨log.length, Wal.header.length, []⟩ := .single trivial (if_pos ⟨hle, Nat.le_refl _⟩)
  obtain ⟨-, hpoll⟩ := got_prefix hw (show Wal.appendAll Wal.header [] = .ok _ from rfl) hlog hrun
  obtain ⟨t, ht, hgot⟩ := hpoll log.length hle (Nat.le_refl _)
  exact ⟨log, _, t, hlog, hrun, ht, hgot _ log (List.prefix_refl _) hlog rfl⟩

end Poll

end LeafDb
