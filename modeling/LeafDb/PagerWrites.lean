import LeafDb.SessionsInv

/-!
# What an access writes to the data file

A pager reads the data file for a page that is not in the pool and writes dirty pages to it. On another data file that
has the same content at the pages it reads, an access does the same: it returns the same, the pager has the same in
memory afterwards, and the same pages are written (`getWrites`, `adoptAllWrites`, `flushWrites`).
-/

namespace LeafDb

namespace Pager
variable {p p' : Pager} {f g : Bytes} {n : Nat} {im : Image}

/-- The pager on another data file. -/
def withFile (p : Pager) (f : Bytes) : Pager := { p with file := f }

@[simp] theorem withFile_file (p : Pager) : p.withFile p.file = p := rfl

/-! ### Evictions -/

/-- What `evictOldest` writes. -/
def oldestWrites (p : Pager) : List (Nat × Bytes) :=
  match p.pool.pages.entries.getLast? with
  | none => []
  | some ⟨old, data⟩ => if old ∈ p.pool.dirty then [(old, data.bytes)] else []

def loopWrites : Nat → Pager → List (Nat × Bytes)
  | 0, _ => []
  | fuel + 1, p =>
    if p.pool.pages.entries.length < p.pool.capacity then [] else p.oldestWrites ++ loopWrites fuel p.evictOldest

def evictWrites (p : Pager) : List (Nat × Bytes) :=
  if p.touched.isSome then [] else loopWrites p.pool.pages.entries.length p

theorem evictOldest_withFile (p : Pager) (f : Bytes) :
    (p.withFile f).evictOldest = p.evictOldest.withFile (writePages f p.oldestWrites) := by
  unfold evictOldest oldestWrites
  rw [show (p.withFile f).pool = p.pool from rfl]
  cases p.pool.pages.entries.getLast? with
  | none => rfl
  | some e =>
    simp only
    split <;> rfl

theorem loopWrites_withFile (fuel : Nat) (p : Pager) (f : Bytes) : loopWrites fuel (p.withFile f) = loopWrites fuel p := by
  induction fuel generalizing p f with
  | zero => rfl
  | succ fuel ih =>
    unfold loopWrites
    rw [evictOldest_withFile, ih]
    rfl

theorem evictLoop_withFile (fuel : Nat) (p : Pager) (f : Bytes) :
    evictLoop fuel (p.withFile f) = (evictLoop fuel p).withFile (writePages f (loopWrites fuel p)) := by
  induction fuel generalizing p f with
  | zero => rfl
  | succ fuel ih =>
    unfold evictLoop loopWrites
    rw [evictOldest_withFile, ih, show (p.withFile f).pool = p.pool from rfl]
    split
    · rfl
    · rw [writePages, writePages, writePages, ← List.foldl_append]

theorem evictIfFull_withFile (p : Pager) (f : Bytes) :
    (p.withFile f).evictIfFull = p.evictIfFull.withFile (writePages f p.evictWrites) := by
  unfold evictIfFull evictWrites
  rw [show (p.withFile f).touched = p.touched from rfl]
  split
  · rfl
  · exact evictLoop_withFile _ p f

theorem file_evictIfFull (p : Pager) : p.evictIfFull.file = writePages p.file p.evictWrites :=
  congrArg Pager.file (evictIfFull_withFile p p.file)

theorem length_evictWrites (h : p.Live) {e : Nat × Bytes} (he : e ∈ p.evictWrites) : e.2.length = pageSize := by
  have hloop : ∀ fuel (q : Pager), (∀ n im, q.cached n = some im → im.bytes.length = pageSize) →
      ∀ e ∈ loopWrites fuel q, e.2.length = pageSize := by
    intro fuel
    induction fuel with
    | zero => exact fun q _ e he => absurd he List.not_mem_nil
    | succ fuel ih =>
      intro q hq e he
      unfold loopWrites at he
      split at he
      · cases he
      rcases List.mem_append.1 he with he | he
      · unfold oldestWrites at he
        split at he
        · cases he
        rename_i old data hl
        split at he
        · obtain rfl := List.mem_singleton.1 he
          exact hq old data (AList.mem_lookup_iff.2 (List.mem_of_getLast? hl))
        · cases he
      · refine ih q.evictOldest (fun n im hn => ?_) e he
        unfold evictOldest at hn
        split at hn
        · exact hq n im hn
        rename_i old data hl
        have hpop : (q.pool.pages.erase old).lookup n = some im := by
          split at hn <;> exact hn
        by_cases hno : n = old
        · subst hno
          rw [AList.lookup_erase] at hpop
          cases hpop
        · rw [AList.lookup_erase_ne hno] at hpop
          exact hq n im hpop
  unfold evictWrites at he
  split at he
  · cases he
  · exact hloop _ p h.cached_length e he

/-! ### Reads -/

/-- The page read from the file evicts others. -/
def getWrites (p : Pager) (n : Nat) : List (Nat × Bytes) :=
  if p.numPages ≤ n ∧ n ≠ 0 then []
  else match p.pool.get n with
    | some _ => []
    | none => { p with nextId := p.nextId + 1 }.evictWrites

theorem get_withFile (h : p.cached n = none → readPage f n = readPage p.file n) (hg : p.get n = .ok (im, p')) :
    (p.withFile f).get n = .ok (im, p'.withFile (writePages f (p.getWrites n))) := by
  unfold get getWrites at *
  rw [show (p.withFile f).pool = p.pool from rfl, show (p.withFile f).numPages = p.numPages from rfl]
  split at hg
  · cases hg
  rename_i hn
  rw [if_neg hn, if_neg hn]
  split at hg
  · rename_i heq
    rw [heq]
    cases hg
    rfl
  · rename_i heq
    rw [heq]
    cases hg
    have hnone : p.cached n = none := Option.map_eq_none_iff.1 heq
    have hev := evictIfFull_withFile { p with nextId := p.nextId + 1 } f
    simp only [newImage, withFile] at hev ⊢
    rw [h hnone, hev]

theorem get_withFile_error {e : PyError} (hg : p.get n = .error e) : (p.withFile f).get n = .error e := by
  unfold get at *
  rw [show (p.withFile f).numPages = p.numPages from rfl]
  split at hg
  · rename_i hn
    rw [if_pos hn]
    exact hg
  · split at hg <;> cases hg

theorem file_get (hg : p.get n = .ok (im, p')) : p'.file = writePages p.file (p.getWrites n) := by
  have := hg.symm.trans (get_withFile (f := p.file) (fun _ => rfl) hg)
  exact congrArg Pager.file (Prod.mk.inj (Except.ok.inj this)).2

theorem length_getWrites (h : p.Live) {e : Nat × Bytes} (he : e ∈ p.getWrites n) : e.2.length = pageSize := by
  unfold getWrites at he
  split at he
  · cases he
  split at he
  · cases he
  · exact length_evictWrites (live_newImage h []) he

/-- Full pages written to two data files leave a page the same in both if it was. -/
theorem readPage_writePages_congr {ws : List (Nat × Bytes)} (hlen : ∀ e ∈ ws, e.2.length = pageSize)
    (h : readPage f n = readPage g n) : readPage (writePages f ws) n = readPage (writePages g ws) n := by
  rw [readPage_writePages_images hlen, readPage_writePages_images hlen, h]

/-- A page that is read from the data file on the way from `p` to `p'` has the same content in `f` and `g`. -/
def ReadsSame (f g : Bytes) (p p' : Pager) : Prop :=
  ∀ n, p.cached n = none → (p'.cached n).isSome → readPage g n = readPage f n

def getAllWrites : Pager → List Nat → List (Nat × Bytes)
  | _, [] => []
  | p, n :: ns =>
    match p.get n with
    | .error _ => []
    | .ok (_, p') => p.getWrites n ++ getAllWrites p' ns

/-- What `adoptAll` writes. -/
def adoptAllWrites : List (Nat × List (Nat × Bytes) × Nat) → List (List Nat) → Pager → List (Nat × Bytes)
  | [], _, _ => []
  | (_, images, numPages) :: batches, reads, p =>
    let q := p.adopt images numPages
    q.getAllWrites (reads.headD []) ++
      if (q.getAll (reads.headD [])).2 then adoptAllWrites batches reads.tail (q.getAll (reads.headD [])).1 else []

/-- `p` has the data file `v` with `ws` written to it, and behaves as on `g` with `ws` written to it. -/
structure Writing (v g : Bytes) (p : Pager) (ws : List (Nat × Bytes)) : Prop where
  wf : p.WF
  file : p.file = writePages v ws
  length : ∀ e ∈ ws, e.2.length = pageSize

theorem Writing.get {v : Bytes} {ws : List (Nat × Bytes)} (h : Writing v g p ws) (hg : p.get n = .ok (im, p'))
    (hr : ReadsSame v g p p') : Writing v g p' (ws ++ p.getWrites n) ∧
      (p.withFile (writePages g ws)).get n = .ok (im, p'.withFile (writePages g (ws ++ p.getWrites n))) := by
  have happ : ∀ x : Bytes, writePages x (ws ++ p.getWrites n) = writePages (writePages x ws) (p.getWrites n) := fun x =>
    List.foldl_append
  have hf := fetches_get h.wf hg
  refine ⟨⟨hf.wf h.wf, by rw [happ, ← h.file, file_get hg], fun e he => ?_⟩, ?_⟩
  · exact (List.mem_append.1 he).elim (h.length e) (length_getWrites h.wf.live)
  · rw [happ]
    refine get_withFile (fun hnone => ?_) hg
    rw [h.file]
    exact readPage_writePages_congr h.length (hr n hnone (by rw [hf.fetched]; rfl))

theorem Writing.getAll {v : Bytes} {ws : List (Nat × Bytes)} {ns : List Nat} (h : Writing v g p ws)
    (hr : GetsOk (ReadsSame v g) p ns) : Writing v g (p.getAll ns).1 (ws ++ p.getAllWrites ns) ∧
      (p.withFile (writePages g ws)).getAll ns =
        ((p.getAll ns).1.withFile (writePages g (ws ++ p.getAllWrites ns)), (p.getAll ns).2) := by
  induction ns generalizing p ws with
  | nil =>
    rw [getAllWrites, List.append_nil]
    exact ⟨h, rfl⟩
  | cons n ns ih =>
    unfold getAllWrites Pager.getAll
    cases hg : p.get n with
    | error e =>
      rw [get_withFile_error hg, List.append_nil]
      exact ⟨h, rfl⟩
    | ok r =>
      obtain ⟨im, p'⟩ := r
      obtain ⟨hsame, hrest⟩ := hr im p' hg
      obtain ⟨h', heq⟩ := h.get hg hsame
      rw [heq, ← List.append_assoc]
      exact ih h' hrest

theorem adopt_withFile (p : Pager) (f : Bytes) (images : List (Nat × Bytes)) (numPages : Nat) :
    (p.withFile f).adopt images numPages = (p.adopt images numPages).withFile f := by
  have hfold : ∀ q : Pager, images.foldl adoptImage (q.withFile f) = (images.foldl adoptImage q).withFile f := by
    induction images with
    | nil => exact fun q => rfl
    | cons e images ih => exact fun q => ih (q.adoptImage e)
  unfold adopt
  simp only [hfold]
  rw [show ((images.foldl adoptImage p).withFile f).numPages = (images.foldl adoptImage p).numPages from rfl]
  split <;> rfl

theorem Writing.adoptAll {v : Bytes} {ws : List (Nat × Bytes)} {batches : List (Nat × List (Nat × Bytes) × Nat)}
    {reads : List (List Nat)} (h : Writing v g p ws) (ht : p.touched = none)
    (hlen : ∀ b ∈ batches, ∀ e ∈ b.2.1, e.2.length = pageSize) (hr : AdoptsOk (ReadsSame v g) batches reads p) (pos : Nat) :
    Writing v g (p.adoptAll batches reads pos).1 (ws ++ p.adoptAllWrites batches reads) ∧
      (p.withFile (writePages g ws)).adoptAll batches reads pos =
        ((p.adoptAll batches reads pos).1.withFile (writePages g (ws ++ p.adoptAllWrites batches reads)),
          (p.adoptAll batches reads pos).2) := by
  induction batches generalizing p ws reads pos with
  | nil =>
    rw [adoptAllWrites, List.append_nil]
    exact ⟨h, rfl⟩
  | cons b batches ih =>
    obtain ⟨newPos, images, numPages⟩ := b
    obtain ⟨hr1, hr2⟩ := hr
    have ha := adopts_adopt p images numPages
    have hadopt : Writing v g (p.adopt images numPages) ws :=
      ⟨ha.wf h.wf ht (hlen _ List.mem_cons_self), ha.file_eq.trans h.file, h.length⟩
    obtain ⟨h', heq⟩ := hadopt.getAll hr1
    have htouched : ((p.adopt images numPages).getAll (reads.headD [])).1.touched = none :=
      (getAll_induct (P := fun q => q.WF ∧ q.touched = none) (fun q q' n im hq hg _ =>
        ⟨(fetches_get hq.1 hg).wf hq.1, (fetches_get hq.1 hg).touched_eq.trans hq.2⟩) (getsOk_of_forall (E := fun _ _ => True) (fun _ _ => trivial) _ _)
        ⟨hadopt.wf, ha.touched_eq.trans ht⟩).2
    unfold adoptAllWrites Pager.adoptAll
    simp only
    rw [adopt_withFile, heq]
    rcases hq : (p.adopt images numPages).getAll (reads.headD []) with ⟨q, done⟩
    rw [hq] at h' hr2 htouched
    cases done with
    | false => exact ⟨by rw [if_neg Bool.false_ne_true, List.append_nil]; exact h',
        by rw [if_neg Bool.false_ne_true, List.append_nil]⟩
    | true =>
      rw [if_pos rfl, ← List.append_assoc]
      exact ih h' htouched (fun b hb => hlen b (List.mem_cons_of_mem _ hb)) hr2 newPos

/-! ### Writes and flushes -/

/-- What a write of page `n` may ask the data file for is the same in `f` and `g`. -/
def AsksSame (f g : Bytes) (p : Pager) (n : Nat) : Prop := n ∉ p.shadow → p.cached n = none →
  readPage g n = readPage f n ∧ ((n + 1) * pageSize ≤ g.length ↔ (n + 1) * pageSize ≤ f.length)

theorem saveShadow_withFile (h : AsksSame p.file f p n) : (p.withFile f).saveShadow n = (p.saveShadow n).withFile f := by
  unfold saveShadow
  rw [show (p.withFile f).touched = p.touched from rfl, show (p.withFile f).shadow = p.shadow from rfl,
    show (p.withFile f).pool = p.pool from rfl]
  split
  swap
  · rfl
  rename_i hn
  cases hget : p.pool.get n with
  | some r => rfl
  | none =>
    obtain ⟨hread, hlen⟩ := h hn.2 (Option.map_eq_none_iff.1 hget)
    simp only [newImage, withFile, hread, if_congr hlen]
    split <;> rfl

theorem putPage_withFile (ht : p.touched.isSome) (h : AsksSame p.file f p n) (padded : Image) :
    (p.withFile f).putPage n padded = (p.putPage n padded).withFile f := by
  have hsave : (p.saveShadow n).touched = p.touched := by
    unfold saveShadow
    split
    · split
      · rfl
      · split <;> rfl
    · rfl
  have hevict : ∀ q : Pager, q.touched.isSome → q.evictIfFull = q := fun q hq => if_pos hq
  have h1 := hevict (p.saveShadow n) (hsave ▸ ht)
  have h2 := hevict ((p.saveShadow n).withFile f) (show (p.saveShadow n).touched.isSome = true from hsave ▸ ht)
  simp only [putPage, saveShadow_withFile h, install, h1, h2]
  rfl

theorem write_withFile {data : Bytes} (ht : p.touched.isSome) (h : AsksSame p.file f p n) (hw : p.write n data = .ok p') :
    (p.withFile f).write n data = .ok (p'.withFile f) := by
  obtain ⟨hlen, rfl⟩ := write_eq_ok hw
  unfold write
  rw [if_neg (Nat.not_lt.2 hlen)]
  exact congrArg Except.ok (putPage_withFile (p := { p with nextId := p.nextId + 1 }) ht h _)

theorem allocate_withFile (ht : p.touched.isSome) (h : AsksSame p.file f p p.numPages) :
    (p.withFile f).allocate.2 = p.allocate.2.withFile f :=
  putPage_withFile (p := { p with numPages := p.numPages + 1 }) ht h emptyPage

def flushWrites (p : Pager) : List (Nat × Bytes) :=
  match poolImages p.pool (p.pool.dirty.insertionSort (· ≤ ·)) with
  | .error _ => []
  | .ok images => images

theorem flush_withFile (hf : p.flush = .ok p') (f : Bytes) :
    (p.withFile f).flush = .ok (p'.withFile (writePages f p.flushWrites)) ∧ p'.file = writePages p.file p.flushWrites := by
  unfold flush flushWrites at *
  rw [show (p.withFile f).pool = p.pool from rfl]
  cases himages : poolImages p.pool (p.pool.dirty.insertionSort (· ≤ ·)) with
  | error e =>
    rw [himages] at hf
    cases hf
  | ok images =>
    rw [himages] at hf
    cases hf
    exact ⟨rfl, rfl⟩

theorem flushWrites_of_dirty (h : p.pool.dirty = []) : p.flushWrites = [] := by
  unfold flushWrites
  rw [h]
  rfl

theorem flushWrites_eq (h : p.WF) :
    p.flushWrites = (p.pool.dirty.insertionSort (· ≤ ·)).map fun n => (n, p.content n) := by
  unfold flushWrites
  rw [poolImages_eq_content fun n hn => h.dirty_cached n (by simpa using hn)]

theorem length_flushWrites (h : p.WF) {e : Nat × Bytes} (he : e ∈ p.flushWrites) : e.2.length = pageSize := by
  rw [flushWrites_eq h] at he
  obtain ⟨n, -, rfl⟩ := List.mem_map.1 he
  exact h.length_content n

end Pager

end LeafDb
