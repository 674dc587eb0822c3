import LeafDb.Sessions

/-!
# Sessions and the log

Every open session stands at a batch boundary of the log: `Tracks log history x unread` says that behind
its position are exactly the batches `unread`, and that these end the history. `Sound` is what the
sessions, the log and the published log end have to do with each other in every state reached without an
open that resets the log under another session (`OpenAlone`).
-/

namespace LeafDb

namespace Pager
variable {p p' : Pager}

/-! ### Adopting a batch -/

theorem WF.file (h : p.WF) (f : Bytes) : WF { p with file := f } :=
  ⟨h.cached_length, h.cached_id, h.shadow_length, h.shadow_id, h.dirty_cached, h.shadow_touched,
    h.touched_dirty, h.nextId_pos, h.numPages_pos⟩

/-- `p'` is `p` after it took over the images `images`. -/
structure Adopts (p p' : Pager) (images : List (Nat × Bytes)) : Prop where
  cached_other : ∀ n, n ∉ images.map Prod.fst → p'.cached n = p.cached n
  content_eq : ∀ n, p'.content n = imageAfter images (p.content n) n
  dirty_iff : ∀ n, n ∈ p'.pool.dirty ↔ n ∈ p.pool.dirty ∧ n ∉ images.map Prod.fst
  shadow_eq : p'.shadow = p.shadow
  wf : p.WF → p.touched = none → (∀ e ∈ images, e.2.length = pageSize) → p'.WF
  file_eq : p'.file = p.file
  touched_eq : p'.touched = p.touched
  numPages_le : p.numPages ≤ p'.numPages

theorem Adopts.refl (p : Pager) : Adopts p p [] where
  cached_other _ _ := rfl
  content_eq _ := rfl
  dirty_iff n := by simp
  shadow_eq := rfl
  wf h _ _ := h
  file_eq := rfl
  touched_eq := rfl
  numPages_le := Nat.le_refl _

theorem Adopts.trans {q : Pager} {images images' : List (Nat × Bytes)} (h1 : Adopts p p' images)
    (h2 : Adopts p' q images') : Adopts p q (images ++ images') where
  cached_other n hn := by
    rw [List.map_append, List.mem_append, not_or] at hn
    rw [h2.cached_other n hn.2, h1.cached_other n hn.1]
  content_eq n := by rw [h2.content_eq, h1.content_eq, imageAfter_append]
  dirty_iff n := by rw [h2.dirty_iff, h1.dirty_iff, List.map_append, List.mem_append, not_or, and_assoc]
  shadow_eq := h2.shadow_eq.trans h1.shadow_eq
  wf h ht hlen := h2.wf (h1.wf h ht fun e he => hlen e (List.mem_append_left _ he)) (h1.touched_eq.trans ht)
    fun e he => hlen e (List.mem_append_right _ he)
  file_eq := h2.file_eq.trans h1.file_eq
  touched_eq := h2.touched_eq.trans h1.touched_eq
  numPages_le := h1.numPages_le.trans h2.numPages_le

theorem cached_adoptImage (p : Pager) (e : Nat × Bytes) (n : Nat) :
    (p.adoptImage e).cached n = if n = e.1 then some ⟨p.nextId, e.2⟩ else p.cached n := by
  show (p.pool.pages.insert e.1 _).lookup n = _
  split
  · subst n; exact AList.lookup_insert _
  · exact AList.lookup_insert_ne ‹_›

theorem mem_dirty_adoptImage (p : Pager) (e : Nat × Bytes) (n : Nat) :
    n ∈ (p.adoptImage e).pool.dirty ↔ n ∈ p.pool.dirty ∧ n ≠ e.1 := by
  show n ∈ p.pool.dirty.filter (· ≠ e.1) ↔ _
  simp

theorem wf_adoptImage (h : p.WF) (ht : p.touched = none) {e : Nat × Bytes} (he : e.2.length = pageSize) :
    (p.adoptImage e).WF where
  cached_length n im hc := by
    rw [cached_adoptImage] at hc
    split at hc
    · cases hc; exact he
    · exact h.cached_length n im hc
  cached_id n im hc := by
    show im.id < p.nextId + 1
    rw [cached_adoptImage] at hc
    split at hc
    · cases hc; exact Nat.lt_succ_self _
    · exact Nat.lt_succ_of_lt (h.cached_id n im hc)
  shadow_length := h.shadow_length
  shadow_id n im hs := Nat.lt_succ_of_lt (h.shadow_id n im hs)
  dirty_cached n hn := by
    obtain ⟨hd, hne⟩ := (mem_dirty_adoptImage p e n).1 hn
    rw [cached_adoptImage, if_neg hne]
    exact h.dirty_cached n hd
  shadow_touched := h.shadow_touched
  touched_dirty n hn := by
    change n ∈ p.touched.getD [] at hn
    rw [ht] at hn; cases hn
  nextId_pos := Nat.succ_pos _
  numPages_pos := h.numPages_pos

theorem adopts_adoptImage (p : Pager) (e : Nat × Bytes) : Adopts p (p.adoptImage e) [e] where
  cached_other n hn := by rw [cached_adoptImage, if_neg (by simpa using hn)]
  content_eq n := by
    show _ = if e.1 = n then e.2 else p.content n
    unfold content
    rw [cached_adoptImage]
    by_cases hn : n = e.1
    · rw [if_pos hn, if_pos hn.symm]
    · rw [if_neg hn, if_neg (Ne.symm hn)]
      rfl
  dirty_iff n := by rw [mem_dirty_adoptImage]; simp
  shadow_eq := rfl
  wf h ht hlen := wf_adoptImage h ht (hlen e (List.mem_singleton_self e))
  file_eq := rfl
  touched_eq := rfl
  numPages_le := Nat.le_refl _

theorem adopts_foldl (p : Pager) (images : List (Nat × Bytes)) : Adopts p (images.foldl adoptImage p) images := by
  induction images generalizing p with
  | nil => exact .refl p
  | cons e images ih => exact (adopts_adoptImage p e).trans (ih (p.adoptImage e))

theorem adopts_adopt (p : Pager) (images : List (Nat × Bytes)) (numPages : Nat) :
    Adopts p (p.adopt images numPages) images := by
  have h := adopts_foldl p images
  unfold adopt
  simp only
  split
  · rename_i hlt
    exact ⟨h.cached_other, h.content_eq, h.dirty_iff, h.shadow_eq, fun hw ht hl => by
        have hw' := h.wf hw ht hl
        exact ⟨hw'.cached_length, hw'.cached_id, hw'.shadow_length, hw'.shadow_id, hw'.dirty_cached,
          hw'.shadow_touched, hw'.touched_dirty, hw'.nextId_pos, Nat.lt_of_le_of_lt (Nat.zero_le _) hlt⟩,
      h.file_eq, h.touched_eq, h.numPages_le.trans hlt.le⟩
  · exact h

/-! ### The reads of a refresh -/

variable {E : Pager → Pager → Prop}

/-- Every one of the reads `ns` that returns takes the pager from `p` to some `p'` with `E p p'`. -/
def GetsOk (E : Pager → Pager → Prop) : Pager → List Nat → Prop
  | _, [] => True
  | p, n :: ns => ∀ im p', p.get n = .ok (im, p') → E p p' ∧ GetsOk E p' ns

/-- `GetsOk` for the reads after each batch. -/
def AdoptsOk (E : Pager → Pager → Prop) : List (Nat × List (Nat × Bytes) × Nat) → List (List Nat) → Pager → Prop
  | [], _, _ => True
  | (_, images, numPages) :: batches, reads, p =>
    GetsOk E (p.adopt images numPages) (reads.headD []) ∧
      AdoptsOk E batches reads.tail ((p.adopt images numPages).getAll (reads.headD [])).1

theorem getsOk_of_forall (hE : ∀ p p', E p p') (p : Pager) (ns : List Nat) : GetsOk E p ns := by
  induction ns generalizing p with
  | nil => trivial
  | cons n ns ih => exact fun im p' _ => ⟨hE _ _, ih p'⟩

theorem adoptsOk_of_forall (hE : ∀ p p', E p p') (batches : List (Nat × List (Nat × Bytes) × Nat))
    (reads : List (List Nat)) (p : Pager) : AdoptsOk E batches reads p := by
  induction batches generalizing reads p with
  | nil => trivial
  | cons b batches ih => exact ⟨getsOk_of_forall hE _ _, ih _ _⟩

theorem adoptsOk_nil (batches : List (Nat × List (Nat × Bytes) × Nat)) (p : Pager) : AdoptsOk E batches [] p := by
  induction batches generalizing p with
  | nil => trivial
  | cons b batches ih => exact ⟨trivial, ih _⟩

/-- What every read keeps is kept by a sequence of reads. -/
theorem getAll_induct {P : Pager → Prop} (hget : ∀ p p' n im, P p → p.get n = .ok (im, p') → E p p' → P p')
    {ns : List Nat} (hok : GetsOk E p ns) (hP : P p) : P (p.getAll ns).1 := by
  induction ns generalizing p with
  | nil => exact hP
  | cons n ns ih =>
    unfold getAll
    cases hg : p.get n with
    | error e => exact hP
    | ok r =>
      obtain ⟨im, p'⟩ := r
      obtain ⟨hE, hok⟩ := hok im p' hg
      exact ih hok (hget p p' n im hP hg hE)

/-- What adopting the next unread batch and reading keep holds when the loop ends; the position has then
moved over the adopted batches, which are all of them if no read raised. -/
theorem adoptAll_induct {P : Pager → List Batch → Prop}
    (hget : ∀ p p' n im unread, P p unread → p.get n = .ok (im, p') → E p p' → P p' unread)
    (hadopt : ∀ p b unread, P p (b :: unread) → P (p.adopt b.pages b.numPages) unread)
    {unread : List Batch} {reads : List (List Nat)} {pos : Nat} (hok : AdoptsOk E (Wal.located pos unread) reads p)
    (hP : P p unread) :
    ∃ adopted unread', unread = adopted ++ unread' ∧
      (p.adoptAll (Wal.located pos unread) reads pos).2.1 = pos + (blobs adopted).length ∧
      P (p.adoptAll (Wal.located pos unread) reads pos).1 unread' ∧
      ((p.adoptAll (Wal.located pos unread) reads pos).2.2 = true → unread' = []) := by
  induction unread generalizing p reads pos with
  | nil => exact ⟨[], [], rfl, rfl, hP, fun _ => rfl⟩
  | cons b unread ih =>
    rw [Wal.located] at hok ⊢
    unfold adoptAll
    set q := p.adopt b.pages b.numPages with hq
    have hQ := getAll_induct (P := fun p => P p unread) (fun p p' n im => hget p p' n im unread) hok.1
      (hadopt p b unread hP)
    rcases hr : q.getAll (reads.headD []) with ⟨q', done⟩
    have hok2 := hok.2
    rw [← hq, hr] at hQ hok2
    cases done with
    | false =>
      refine ⟨[b], unread, rfl, ?_, hQ, fun h => by cases h⟩
      rw [blobs_cons, blobs_nil, List.append_nil]
    | true =>
      obtain ⟨adopted, unread', heq, hpos, hP', hdone⟩ := ih hok2 hQ
      refine ⟨b :: adopted, unread', by rw [heq]; rfl, ?_, hP', hdone⟩
      rw [blobs_cons, List.length_append, ← Nat.add_assoc]
      exact hpos

/-! ### What an open has read -/

theorem exists_get {n : Nat} (h : n < p.numPages ∨ n = 0) : ∃ im p', p.get n = .ok (im, p') := by
  unfold get
  rw [if_neg (by omega)]
  split <;> exact ⟨_, _, rfl⟩

/-- A new pager after `Catalog.load`: page 0 is in the pool. -/
def loaded (file : Bytes) (cacheSize : Nat) (h : 0 < cacheSize) : Pager :=
  { openFile file cacheSize h with
    pool := (openFile file cacheSize h).pool.put 0 ⟨1, readPage file 0⟩ false
    nextId := 2 }

theorem get_openFile (file : Bytes) (cacheSize : Nat) (h : 0 < cacheSize) :
    (openFile file cacheSize h).get 0 = .ok (⟨1, readPage file 0⟩, loaded file cacheSize h) := by
  rw [get, if_neg fun hn => hn.2 rfl]
  rfl

theorem cached_loaded (file : Bytes) (cacheSize : Nat) (h : 0 < cacheSize) (n : Nat) :
    (loaded file cacheSize h).cached n = if n = 0 then some ⟨1, readPage file 0⟩ else none := by
  show (AList.insert 0 _ ∅).lookup n = _
  split
  · subst n; exact AList.lookup_insert _
  · exact (AList.lookup_insert_ne ‹_›).trans (AList.lookup_empty _)

theorem content_loaded (file : Bytes) (cacheSize : Nat) (h : 0 < cacheSize) (n : Nat) :
    (loaded file cacheSize h).content n = readPage file n := by
  unfold content
  rw [cached_loaded]
  by_cases hn : n = 0
  · subst n; rfl
  · rw [if_neg hn]; rfl

/-! ### Writing in a transaction -/

/-- `p'` is `p` after a write to page `n` in the open transaction. -/
structure Writes (p p' : Pager) (n : Nat) (data : Bytes) : Prop where
  wf : p'.WF
  file_eq : p'.file = p.file
  base_eq : ∀ m, p'.base m = p.base m
  content_eq : ∀ m, p'.content m = if m = n then data else p.content m
  touched_eq : p'.touched = p.touched.map (·.insert n)
  numPages_eq : p'.numPages = max p.numPages (n + 1)
  mem_dirty : ∀ m, m ∈ p'.pool.dirty ↔ m = n ∨ m ∈ p.pool.dirty
  clean : p.Clean → p'.Clean
  base_cached : ∀ m, (p.cached m).isSome → ∀ f, base { p' with file := f } m = base { p with file := f } m

/-- A pre-image depends on the shadow, the pool and the file only. -/
theorem base_congr {m : Nat} (hs : p'.shadow.lookup m = p.shadow.lookup m) (hc : p'.cached m = p.cached m) (f : Bytes) :
    base { p' with file := f } m = base { p with file := f } m := by
  have hcontent : content { p' with file := f } m = content { p with file := f } m := by
    unfold content
    rw [show cached { p' with file := f } m = cached { p with file := f } m from hc]
  unfold base
  rw [show ({ p' with file := f } : Pager).shadow.lookup m = p.shadow.lookup m from hs, hcontent]

theorem Stores.base_cached {n : Nat} {im : Image} (hs : Stores p p' n im) (ht : p.touched.isSome) {m : Nat}
    (hm : (p.cached m).isSome) (f : Bytes) : base { p' with file := f } m = base { p with file := f } m := by
  by_cases hmn : m = n
  · subst hmn
    by_cases hsh : m ∈ p.shadow
    · obtain ⟨c, hc⟩ := Option.isSome_iff_exists.1 (AList.lookup_isSome.2 hsh)
      unfold base
      rw [show ({ p' with file := f } : Pager).shadow.lookup m = some c from
        (hs.shadow_other m (.inr (.inr hsh))).trans hc, show ({ p with file := f } : Pager).shadow.lookup m = some c from hc]
      cases c <;> rfl
    · obtain ⟨c, hc⟩ := Option.isSome_iff_exists.1 hm
      have hnone : ({ p with file := f } : Pager).shadow.lookup m = none := AList.lookup_eq_none.2 hsh
      unfold base
      rw [show ({ p' with file := f } : Pager).shadow.lookup m = some (some c) from hs.shadow_cached ht hsh c hc, hnone]
      exact (content_of_cached (p := { p with file := f }) hc).symm
  · exact base_congr (hs.shadow_other m (.inl hmn)) ((hs.file_touched ht).2 m hmn) f

theorem Stores.writes {n : Nat} {im : Image} (hs : Stores p p' n im) (h : p.WF) (ht : p.touched.isSome)
    (hlen : im.bytes.length = pageSize) (hid : im.id < p.nextId) : Writes p p' n im.bytes where
  wf := hs.wf h hlen hid
  file_eq := (hs.file_touched ht).1
  base_eq := hs.base_eq ht
  content_eq m := by
    split
    · subst m; exact hs.content_self
    · exact hs.content_other_of_touched ht ‹_›
  touched_eq := hs.touched_eq
  numPages_eq := hs.numPages_eq
  mem_dirty m := by
    rw [hs.dirty_iff]
    refine or_congr_right' fun hm => ⟨And.left, fun hd => ⟨hd, ?_⟩⟩
    rw [(hs.file_touched ht).2 m hm]
    exact h.dirty_cached m hd
  clean := hs.clean
  base_cached _ hm f := hs.base_cached ht hm f

theorem writes_write (h : p.WF) (ht : p.touched.isSome) {n : Nat} {data : Bytes} (hw : p.write n data = .ok p') :
    Writes p p' n (padTo pageSize data) := by
  obtain ⟨hlen, rfl⟩ := write_eq_ok hw
  have hs := stores_putPage (wf_newImage h (padTo pageSize data)) n ⟨p.nextId, padTo pageSize data⟩
  have hw := hs.writes (wf_newImage h _) ht (length_padTo hlen) (Nat.lt_succ_self _)
  exact ⟨hw.wf, hw.file_eq, hw.base_eq, hw.content_eq, hw.touched_eq, hw.numPages_eq, hw.mem_dirty, hw.clean,
    hw.base_cached⟩

theorem writes_allocate (h : p.WF) (ht : p.touched.isSome) :
    Writes p p.allocate.2 p.numPages emptyPage.bytes := by
  have h1 : WF { p with numPages := p.numPages + 1 } :=
    ⟨h.cached_length, h.cached_id, h.shadow_length, h.shadow_id, h.dirty_cached, h.shadow_touched,
      h.touched_dirty, h.nextId_pos, Nat.succ_pos _⟩
  have hs := stores_putPage h1 p.numPages emptyPage
  have hw := hs.writes h1 ht (by simp [emptyPage]) h.nextId_pos
  exact ⟨hw.wf, hw.file_eq, hw.base_eq, hw.content_eq, hw.touched_eq, hw.numPages_eq.trans (by simp), hw.mem_dirty,
    hw.clean, hw.base_cached⟩

end Pager

/-! ### Positions in the log -/

/-- Behind the session's position the log holds exactly the batches `unread`, the last ones of the history. -/
structure Session.Tracks (x : Session) (log : Bytes) (history : List (List (Nat × Bytes))) (unread : List Batch) :
    Prop where
  wf : ∀ f, Pager.WF { x.mem with file := f }
  inTxn_eq : x.inTxn = x.mem.touched.isSome
  touched_nodup : (x.mem.touched.getD []).Nodup
  touched_lt : ∀ n ∈ x.mem.touched.getD [], n < x.mem.numPages
  header_le : Wal.header.length ≤ x.walPos
  pos_le : x.walPos ≤ log.length
  position : log.drop x.walPos = blobs unread
  suffix : ∃ pre, history = pre ++ unread.map Batch.pages

namespace System

/-- No session's position is ahead of the log, what is in the log is published, and a session that has just
refreshed has read all of it. -/
structure Sound (s : System) : Prop where
  pending : ∃ pre pend, s.history = pre ++ pend.map Batch.pages ∧ s.log.drop Wal.header.length = blobs pend
  published : s.log.length ≤ Wal.header.length ∨ s.log.length ≤ s.sharedEnd.getD 0
  tracks : ∀ i x, s.sess.lookup i = some x → ∃ unread, x.Tracks s.log s.history unread
  current : ∀ i, s.refreshed = some i →
    ∃ x, s.sess.lookup i = some x ∧ x.inTxn = false ∧ s.log.drop x.walPos = []

/-- An open finds an empty log or no other session. -/
def OpenAlone (s : System) : Action → Prop
  | .open _ _ => s.log.length ≤ Wal.header.length ∨ s.sess.keys = []
  | _ => True

variable {s t : System} {i : Nat} {x : Session} {p : Pager}

theorem lookup_store (s : System) (i : Nat) (x : Session) (p : Pager) (k : Nat) :
    (s.store i x p).sess.lookup k = if k = i then some { x with mem := p.toPagerMem } else s.sess.lookup k := by
  show (s.sess.insert i _).lookup k = _
  split
  · subst k; exact AList.lookup_insert _
  · exact AList.lookup_insert_ne ‹_›

theorem sound_store (h : Sound s) (hx : ∃ unread, Session.Tracks { x with mem := p.toPagerMem } s.log s.history unread) :
    Sound (s.store i x p) where
  pending := h.pending
  published := h.published
  tracks k y hy := by
    rw [lookup_store] at hy
    split at hy
    · cases hy; exact hx
    · exact h.tracks k y hy
  current k hk := by cases hk

theorem lookup_of_keys (h : s.sess.keys = []) (k : Nat) : s.sess.lookup k = none := by
  rw [AList.lookup_eq_none]
  intro hk
  have hk := AList.mem_keys.1 hk
  rw [h] at hk
  cases hk

theorem alone_iff (s : System) (i : Nat) : s.alone i = true ↔ ∀ k, k ≠ i → s.sess.lookup k = none := by
  simp only [alone, List.all_eq_true, AList.mem_keys, beq_iff_eq, AList.lookup_eq_none]
  constructor
  · intro h k hk hm
    exact hk (h k (by simpa using hm))
  · intro h k hm
    by_contra hk
    exact h k hk (by simpa using hm)

/-! ### What each action does -/

theorem get_cases {n : Nat} (h : s.get i n = some t) :
    ∃ x im p, s.sess.lookup i = some x ∧ (s.pagerOf x).get n = .ok (im, p) ∧ t = s.store i x p := by
  unfold get at h
  split at h
  · cases h
  rename_i x hx
  split at h
  · cases h
  rename_i im p hg
  cases h
  exact ⟨x, im, p, hx, hg, rfl⟩

theorem begin_cases (h : s.begin i = some t) :
    ∃ x, s.sess.lookup i = some x ∧ x.inTxn = false ∧ x.mem.touched = none ∧
      t = s.store i { x with inTxn := true } { s.pagerOf x with touched := some [], shadow := ∅ } := by
  unfold begin at h
  split at h
  · cases h
  rename_i x hx
  split at h
  · cases h
  rename_i hin
  split at h
  · cases h
  rename_i p hb
  obtain ⟨ht, rfl⟩ := Pager.beginTxn_eq_ok hb
  cases h
  exact ⟨x, hx, by simpa using hin, ht, rfl⟩

theorem write_cases {n : Nat} {data : Bytes} (h : s.write i n data = some t) :
    ∃ x p, s.sess.lookup i = some x ∧ x.inTxn = true ∧ (s.pagerOf x).write n data = .ok p ∧ t = s.store i x p := by
  unfold write at h
  split at h
  · cases h
  rename_i x hx
  split at h
  swap
  · cases h
  rename_i hin
  split at h
  · cases h
  rename_i p hw
  cases h
  exact ⟨x, p, hx, hin, hw, rfl⟩

theorem allocate_cases (h : s.allocate i = some t) :
    ∃ x, s.sess.lookup i = some x ∧ x.inTxn = true ∧ t = s.store i x (s.pagerOf x).allocate.2 := by
  unfold allocate at h
  split at h
  · cases h
  rename_i x hx
  split at h
  swap
  · cases h
  rename_i hin
  cases h
  exact ⟨x, hx, hin, rfl⟩

theorem rollback_cases (h : s.rollback i = some t) :
    ∃ x, s.sess.lookup i = some x ∧ x.inTxn = true ∧
      t = s.store i { x with inTxn := false } (s.pagerOf x).rollbackTxn := by
  unfold rollback at h
  split at h
  · cases h
  rename_i x hx
  split at h
  swap
  · cases h
  rename_i hin
  cases h
  exact ⟨x, hx, hin, rfl⟩

theorem checkpoint_cases (h : s.checkpoint i = some t) :
    ∃ x p, s.sess.lookup i = some x ∧ x.inTxn = false ∧ s.alone i = true ∧ (s.pagerOf x).flush = .ok p ∧
      t = { s.store i { x with walPos := Wal.header.length } p with log := Wal.header } := by
  unfold checkpoint at h
  split at h
  · cases h
  rename_i x hx
  split at h
  swap
  · cases h
  rename_i hc
  split at h
  · cases h
  rename_i p hf
  cases h
  exact ⟨x, p, hx, hc.1, hc.2, hf, rfl⟩

theorem drop_cases (h : s.drop i = some t) :
    ∃ x p, s.sess.lookup i = some x ∧ (s.pagerOf x).flush = .ok p ∧
      t = { s with file := p.file, sess := s.sess.erase i, refreshed := none } := by
  unfold drop at h
  split at h
  · cases h
  rename_i x hx
  split at h
  · cases h
  rename_i p hf
  cases h
  exact ⟨x, p, hx, hf, rfl⟩

/-- A close is a rollback if a transaction is open, a checkpoint if it is the last one, and the end of the
session. -/
theorem close_cases {checkpoint : Bool} (h : s.close i checkpoint = some t) :
    ∃ x s1 s2, s.sess.lookup i = some x ∧ (x.inTxn = true ∧ s.rollback i = some s1 ∨ x.inTxn = false ∧ s1 = s) ∧
      ((checkpoint = true ∧ s1.alone i = true) ∧ s1.checkpoint i = some s2 ∨
        ¬ (checkpoint = true ∧ s1.alone i = true) ∧ s2 = s1) ∧ s2.drop i = some t := by
  unfold close at h
  split at h
  · cases h
  rename_i x hx
  obtain ⟨s1, h1, h⟩ := Option.bind_eq_some_iff.1 h
  obtain ⟨s2, h2, h3⟩ := Option.bind_eq_some_iff.1 h
  refine ⟨x, s1, s2, hx, ?_, ?_, h3⟩
  · split at h1
    · exact .inl ⟨‹_›, h1⟩
    · cases h1
      exact .inr ⟨by simpa using ‹¬ x.inTxn = true›, rfl⟩
  · split at h2
    · exact .inl ⟨‹_›, h2⟩
    · cases h2
      exact .inr ⟨‹_›, rfl⟩

theorem openSession_cases {cacheSize : Nat} (h : s.openSession i cacheSize = some t) :
    ∃ u, s.openFiles i cacheSize = some u ∧ u.get i 0 = some t := Option.bind_eq_some_iff.1 h

/-- Whatever the log is, the new session has no page in its pool, and nothing else of the run changes. -/
theorem openFiles_eq {cacheSize : Nat} (h : s.openFiles i cacheSize = some t) :
    s.sess.lookup i = none ∧ ∃ (hc : 0 < cacheSize) (file log : Bytes),
      let p := Pager.openFile file cacheSize hc
      t = { s.store i ⟨p.toPagerMem, log.length, false⟩ p with log := log } := by
  unfold openFiles at h
  split at h
  · rename_i hc
    split at h
    · cases h
    · cases h
      exact ⟨AList.lookup_eq_none.2 hc.2, hc.1, _, _, rfl⟩
  · cases h

theorem cached_openFiles {cacheSize : Nat} (h : s.openFiles i cacheSize = some t) (hx : t.sess.lookup i = some x)
    (n : Nat) : (t.pagerOf x).cached n = none := by
  obtain ⟨-, hc, file, log, rfl⟩ := openFiles_eq h
  cases (AList.lookup_insert _).symm.trans hx
  exact Pager.cached_openFile _ _ hc n

theorem openFiles_cases {cacheSize : Nat} (hs : Sound s) (hok : OpenAlone s (.open i cacheSize))
    (h : s.openFiles i cacheSize = some t) :
    ∃ (hc : 0 < cacheSize) (pre : List (List (Nat × Bytes))) (pend : List Batch) (log : Bytes),
      let p := Pager.openFile (Batch.applyAll s.file pend) cacheSize hc
      s.sess.lookup i = none ∧ s.history = pre ++ pend.map Batch.pages ∧
      s.log.drop Wal.header.length = blobs pend ∧ (pend = [] ∨ s.sess.keys = []) ∧
      log.length = Wal.header.length ∧ (log = s.log ∨ s.sess.keys = []) ∧
      t = { s.store i ⟨p.toPagerMem, log.length, false⟩ p with log := log } := by
  obtain ⟨pre, pend, hhist, hlog⟩ := hs.pending
  unfold openFiles at h
  split at h
  swap
  · cases h
  rename_i hc
  rw [Wal.recover_eq (by rw [hlog, List.append_nil]) Wal.torn_nil] at h
  cases h
  have hlen := congrArg List.length hlog
  rw [List.length_drop] at hlen
  have hpend : pend = [] ∨ s.sess.keys = [] := by
    rcases hok with hle | hk
    · refine .inl ?_
      cases pend with
      | nil => rfl
      | cons b pend =>
        have := Batch.length_blob_pos b
        rw [blobs_cons, List.length_append] at hlen
        omega
    · exact .inr hk
  -- a log shorter than its header belongs to no session
  have hshort : s.log.length < Wal.header.length → s.sess.keys = [] := by
    intro hlt
    rw [List.eq_nil_iff_forall_not_mem]
    intro k hk
    obtain ⟨y, hy⟩ := Option.isSome_iff_exists.1 (AList.lookup_isSome.2 (AList.mem_keys.1 hk))
    obtain ⟨unread, htr⟩ := hs.tracks k y hy
    have := htr.header_le.trans htr.pos_le
    omega
  refine ⟨hc.1, pre, pend, _, AList.lookup_eq_none.2 hc.2, hhist, hlog, hpend, ?_, ?_, rfl⟩
  · split
    · rfl
    · rename_i hz
      obtain rfl : pend = [] := by simpa using hz
      rw [Wal.openLog]
      split
      · simp only [blobs_nil, List.length_nil] at hlen
        omega
      · rfl
  · split
    · rename_i hz
      exact .inr (hpend.resolve_left (by rintro rfl; simp at hz))
    · rw [Wal.openLog]
      split
      · exact .inl rfl
      · exact .inr (hshort (by omega))

/-- What a commit gives to `append_batch` is a batch when the page count fits its field. -/
theorem exists_batch_of_lt {log : Bytes} {unread : List Batch} (hx : x.Tracks log s.history unread)
    (hnum : x.mem.numPages < 256 ^ 4) :
    ∃ b : Batch, b.pages = (s.pagerOf x).touchedPages.map (fun n => (n, (s.pagerOf x).content n)) ∧
      b.numPages = x.mem.numPages := by
  have hmem : ∀ n, n ∈ (s.pagerOf x).touchedPages ↔ n ∈ x.mem.touched.getD [] := fun n => List.mem_insertionSort _
  have hnodup : (s.pagerOf x).touchedPages.Nodup :=
    (List.perm_insertionSort _ _).nodup_iff.2 hx.touched_nodup
  have hsorted : (s.pagerOf x).touchedPages.Pairwise (· < ·) :=
    ((List.pairwise_insertionSort (· ≤ ·) _).and hnodup).imp fun h => Nat.lt_of_le_of_ne h.1 h.2
  refine ⟨⟨_, x.mem.numPages, ?_, ?_, ?_, hnum⟩, rfl, rfl⟩
  · rw [List.map_map]
    simpa [Function.comp_def] using hsorted
  · intro e he
    obtain ⟨n, hn, rfl⟩ := List.mem_map.1 he
    have := hx.touched_lt n ((hmem n).1 hn)
    simp only [Wal.commitPage]
    omega
  · intro e he
    obtain ⟨n, -, rfl⟩ := List.mem_map.1 he
    exact (hx.wf s.file).length_content n

/-- `append_batch` gets a batch: ascending pages below the page count. -/
theorem exists_batch {log : Bytes} {unread : List Batch} {log' : Bytes}
    (hx : x.Tracks log s.history unread)
    (ha : Wal.appendBatch log ((s.pagerOf x).touchedPages.map fun n => (n, (s.pagerOf x).content n)) x.mem.numPages =
      .ok log') :
    ∃ b : Batch, b.pages = (s.pagerOf x).touchedPages.map (fun n => (n, (s.pagerOf x).content n)) ∧
      b.numPages = x.mem.numPages := by
  refine exists_batch_of_lt hx (by_contra fun hn => ?_)
  unfold Wal.appendBatch Wal.commitFrame at ha
  rw [if_neg hn] at ha
  split at ha <;> simp_all

theorem commit_cases_of_tracks (htracks : ∀ x, s.sess.lookup i = some x → ∃ unread, x.Tracks s.log s.history unread)
    (h : s.commit i = some t) :
    ∃ x, s.sess.lookup i = some x ∧ x.inTxn = true ∧
      (x.mem.touched.getD [] = [] ∧
        t = s.store i { x with inTxn := false } { s.pagerOf x with touched := none, shadow := ∅ } ∨
      ∃ b : Batch, b.pages = (s.pagerOf x).touchedPages.map (fun n => (n, (s.pagerOf x).content n)) ∧
        b.numPages = x.mem.numPages ∧ x.mem.touched.getD [] ≠ [] ∧
        t = { s.store i { x with inTxn := false, walPos := (s.log ++ b.blob).length }
                { s.pagerOf x with touched := none, shadow := ∅ } with
              log := s.log ++ b.blob
              sharedEnd := some (max (s.sharedEnd.getD 0) (s.log ++ b.blob).length)
              history := s.history ++ [b.pages] }) := by
  unfold commit at h
  split at h
  · cases h
  rename_i x hx
  split at h
  swap
  · cases h
  rename_i hin
  obtain ⟨unread, htr⟩ := htracks x hx
  rw [Pager.collectCommit_eq (p := s.pagerOf x) (htr.wf s.file)] at h
  simp only at h
  have hempty : ((s.pagerOf x).touchedPages.map fun n => (n, (s.pagerOf x).content n)).isEmpty = true ↔
      x.mem.touched.getD [] = [] := by
    rw [List.isEmpty_iff, List.map_eq_nil_iff]
    rw [← List.length_eq_zero_iff, ← List.length_eq_zero_iff]
    exact iff_of_eq (congrArg (· = 0) (List.length_insertionSort (· ≤ ·) _))
  refine ⟨x, hx, hin, ?_⟩
  split at h
  · rename_i he
    cases h
    exact .inl ⟨hempty.1 he, rfl⟩
  · rename_i he
    split at h
    · cases h
    rename_i log' ha
    obtain ⟨b, hb, hnum⟩ := exists_batch htr ha
    refine .inr ⟨b, hb, hnum, fun hz => he (hempty.2 hz), ?_⟩
    have hlog : log' = s.log ++ b.blob := by
      have := Wal.appendBatch_eq s.log b
      rw [hb, hnum] at this
      exact Except.ok.inj (ha.symm.trans this)
    subst hlog
    cases h
    rw [hb]

theorem commit_cases (hs : Sound s) (h : s.commit i = some t) :
    ∃ x, s.sess.lookup i = some x ∧ x.inTxn = true ∧
      (x.mem.touched.getD [] = [] ∧
        t = s.store i { x with inTxn := false } { s.pagerOf x with touched := none, shadow := ∅ } ∨
      ∃ b : Batch, b.pages = (s.pagerOf x).touchedPages.map (fun n => (n, (s.pagerOf x).content n)) ∧
        b.numPages = x.mem.numPages ∧ x.mem.touched.getD [] ≠ [] ∧
        t = { s.store i { x with inTxn := false, walPos := (s.log ++ b.blob).length }
                { s.pagerOf x with touched := none, shadow := ∅ } with
              log := s.log ++ b.blob
              sharedEnd := some (max (s.sharedEnd.getD 0) (s.log ++ b.blob).length)
              history := s.history ++ [b.pages] }) :=
  commit_cases_of_tracks (hs.tracks i) h

/-- Whatever is published or not, the log ends where the session stands or before the published end. -/
theorem Sound.length_le {unread : List Batch} (hs : Sound s) (htr : x.Tracks s.log s.history unread) :
    s.log.length ≤ x.walPos ∨ s.log.length ≤ s.sharedEnd.getD x.walPos := by
  rcases hs.published with hl | hl
  · exact .inl (hl.trans htr.header_le)
  · cases he : s.sharedEnd with
    | none =>
      rw [he] at hl
      exact .inl (hl.trans (Nat.zero_le _))
    | some e => rw [he] at hl; exact .inr hl

theorem Sound.readBatches {unread : List Batch} (hs : Sound s) (htr : x.Tracks s.log s.history unread)
    (hlt : x.walPos < s.sharedEnd.getD x.walPos) :
    Wal.readBatchesFrom s.log x.walPos (s.sharedEnd.getD x.walPos) = .ok (Wal.located x.walPos unread) :=
  Wal.readBatchesFrom_eq htr.position ((hs.length_le htr).elim (fun hl => hl.trans hlt.le) id)

theorem refresh_cases {reads : List (List Nat)} (hs : Sound s) (h : s.refresh i reads = some t) :
    ∃ x unread, s.sess.lookup i = some x ∧ x.Tracks s.log s.history unread ∧
      (x.inTxn = true ∧ t = { s with refreshed := none } ∨
      x.inTxn = false ∧ unread = [] ∧
        (∃ e, s.sharedEnd.getD 0 ≤ e ∧ t = { s with sharedEnd := some e, refreshed := some i }) ∨
      x.inTxn = false ∧ ∃ r, r = (s.pagerOf x).adoptAll (Wal.located x.walPos unread) reads x.walPos ∧
        Wal.readBatchesFrom s.log x.walPos (s.sharedEnd.getD x.walPos) = .ok (Wal.located x.walPos unread) ∧
        t = { s.store i { x with walPos := r.2.1 } r.1 with refreshed := if r.2.2 then some i else none }) := by
  unfold refresh at h
  split at h
  · cases h
  rename_i x hx
  obtain ⟨unread, htr⟩ := hs.tracks i x hx
  refine ⟨x, unread, hx, htr, ?_⟩
  split at h
  · rename_i hin
    cases h
    exact .inl ⟨hin, rfl⟩
  rename_i hin
  have hin : x.inTxn = false := by simpa using hin
  simp only at h
  split at h
  · rename_i hle
    cases h
    have hend : s.log.length ≤ x.walPos := (hs.length_le htr).elim id fun hl => hl.trans hle
    refine .inr (.inl ⟨hin, ?_, _, ?_, rfl⟩)
    · have hpos := htr.position
      rw [List.drop_of_length_le hend] at hpos
      exact blobs_eq_nil hpos.symm
    · cases s.sharedEnd with
      | none => exact Nat.zero_le _
      | some e => exact Nat.le_refl _
  · rename_i hle
    have hread := hs.readBatches htr (Nat.lt_of_not_le hle)
    rw [hread] at h
    cases h
    exact .inr (.inr ⟨hin, _, rfl, hread, rfl⟩)

/-- An action does not reach what another session has in memory. -/
theorem lookup_step {r : Nat} {a : Action} (ht : s.step a = some t) (hr : a.actor ≠ r) :
    t.sess.lookup r = s.sess.lookup r := by
  have hr : r ≠ a.actor := hr.symm
  cases a with
  | «open» i cacheSize =>
    obtain ⟨u, hu, ht⟩ := openSession_cases ht
    obtain ⟨-, hc, file, log, rfl⟩ := openFiles_eq hu
    obtain ⟨x, im, p, -, -, rfl⟩ := get_cases ht
    exact (AList.lookup_insert_ne hr).trans (AList.lookup_insert_ne hr)
  | refresh i reads =>
    simp only [step, refresh] at ht
    split at ht
    · cases ht
    split at ht
    · cases ht; rfl
    split at ht
    · cases ht; rfl
    split at ht
    · cases ht
    · cases ht
      exact AList.lookup_insert_ne hr
  | get i n =>
    obtain ⟨x, im, p, -, -, rfl⟩ := get_cases ht
    exact AList.lookup_insert_ne hr
  | begin i =>
    obtain ⟨x, -, -, -, rfl⟩ := begin_cases ht
    exact AList.lookup_insert_ne hr
  | write i n data =>
    obtain ⟨x, p, -, -, -, rfl⟩ := write_cases ht
    exact AList.lookup_insert_ne hr
  | allocate i =>
    obtain ⟨x, -, -, rfl⟩ := allocate_cases ht
    exact AList.lookup_insert_ne hr
  | commit i =>
    simp only [step, commit] at ht
    split at ht
    · cases ht
    split at ht
    swap
    · cases ht
    split at ht
    · cases ht
    split at ht
    · cases ht
      exact AList.lookup_insert_ne hr
    split at ht
    · cases ht
    · cases ht
      exact AList.lookup_insert_ne hr
  | rollback i =>
    obtain ⟨x, -, -, rfl⟩ := rollback_cases ht
    exact AList.lookup_insert_ne hr
  | checkpoint i =>
    obtain ⟨x, p, -, -, -, -, rfl⟩ := checkpoint_cases ht
    exact AList.lookup_insert_ne hr
  | close i checkpoint =>
    obtain ⟨x, s1, s2, -, h1, h2, h3⟩ := close_cases ht
    obtain ⟨x3, p, -, -, rfl⟩ := drop_cases h3
    have hs1 : s1.sess.lookup r = s.sess.lookup r := by
      rcases h1 with ⟨-, h1⟩ | ⟨-, rfl⟩
      · obtain ⟨x', -, -, rfl⟩ := rollback_cases h1
        exact AList.lookup_insert_ne hr
      · rfl
    have hs2 : s2.sess.lookup r = s1.sess.lookup r := by
      rcases h2 with ⟨-, h2⟩ | ⟨-, rfl⟩
      · obtain ⟨x', p, -, -, -, -, rfl⟩ := checkpoint_cases h2
        exact AList.lookup_insert_ne hr
      · rfl
    exact (AList.lookup_erase_ne hr).trans (hs2.trans hs1)

/-- Only a commit adds to the history. -/
theorem history_step {a : Action} (hc : ∀ k, a ≠ .commit k) (ht : s.step a = some t) :
    t.history = s.history ∧ t.orig = s.orig := by
  cases a with
  | «open» i cacheSize =>
    obtain ⟨u, hu, ht⟩ := openSession_cases ht
    obtain ⟨-, hc, file, log, rfl⟩ := openFiles_eq hu
    obtain ⟨x, im, p, -, -, rfl⟩ := get_cases ht
    exact ⟨rfl, rfl⟩
  | refresh i reads =>
    simp only [step, refresh] at ht
    split at ht
    · cases ht
    split at ht
    · cases ht
      exact ⟨rfl, rfl⟩
    split at ht
    · cases ht
      exact ⟨rfl, rfl⟩
    split at ht <;> cases ht
    exact ⟨rfl, rfl⟩
  | get i n =>
    obtain ⟨x, im, p, -, -, rfl⟩ := get_cases ht
    exact ⟨rfl, rfl⟩
  | begin i =>
    obtain ⟨x, -, -, -, rfl⟩ := begin_cases ht
    exact ⟨rfl, rfl⟩
  | write i n data =>
    obtain ⟨x, p, -, -, -, rfl⟩ := write_cases ht
    exact ⟨rfl, rfl⟩
  | allocate i =>
    obtain ⟨x, -, -, rfl⟩ := allocate_cases ht
    exact ⟨rfl, rfl⟩
  | commit i => exact (hc i rfl).elim
  | rollback i =>
    obtain ⟨x, -, -, rfl⟩ := rollback_cases ht
    exact ⟨rfl, rfl⟩
  | checkpoint i =>
    obtain ⟨x, p, -, -, -, -, rfl⟩ := checkpoint_cases ht
    exact ⟨rfl, rfl⟩
  | close i checkpoint =>
    obtain ⟨x, s1, s2, -, h1, h2, h3⟩ := close_cases ht
    have hs1 : s1.history = s.history ∧ s1.orig = s.orig := by
      rcases h1 with ⟨-, h1⟩ | ⟨-, rfl⟩
      · obtain ⟨y, -, -, rfl⟩ := rollback_cases h1
        exact ⟨rfl, rfl⟩
      · exact ⟨rfl, rfl⟩
    have hs2 : s2.history = s1.history ∧ s2.orig = s1.orig := by
      rcases h2 with ⟨-, h2⟩ | ⟨-, rfl⟩
      · obtain ⟨y, p, -, -, -, -, rfl⟩ := checkpoint_cases h2
        exact ⟨rfl, rfl⟩
      · exact ⟨rfl, rfl⟩
    obtain ⟨y, p, -, -, rfl⟩ := drop_cases h3
    exact ⟨hs2.1.trans hs1.1, hs2.2.trans hs1.2⟩

theorem orig_step {a : Action} (ht : s.step a = some t) : t.orig = s.orig := by
  by_cases hc : ∃ k, a = .commit k
  · obtain ⟨k, rfl⟩ := hc
    simp only [step, commit] at ht
    split at ht
    · cases ht
    split at ht
    swap
    · cases ht
    split at ht
    · cases ht
    split at ht
    · cases ht
      rfl
    split at ht <;> cases ht
    rfl
  · exact (history_step (fun k h => hc ⟨k, h⟩) ht).2

end System

/-! ### Every action keeps the positions -/

namespace Session.Tracks
variable {x : Session} {log : Bytes} {history : List (List (Nat × Bytes))} {unread : List Batch} {p : Pager}

/-- The session goes on with another pager. -/
theorem store (h : x.Tracks log history unread) {b : Bool} (hwf : p.WF) (hin : b = p.touched.isSome)
    (hnd : (p.touched.getD []).Nodup) (hlt : ∀ n ∈ p.touched.getD [], n < p.numPages) :
    Tracks ⟨p.toPagerMem, x.walPos, b⟩ log history unread :=
  ⟨hwf.file, hin, hnd, hlt, h.header_le, h.pos_le, h.position, h.suffix⟩

theorem store_of_not_touched (h : x.Tracks log history unread) (hwf : p.WF) (ht : p.touched = none) :
    Tracks ⟨p.toPagerMem, x.walPos, false⟩ log history unread :=
  h.store hwf (by rw [ht]; rfl) (by rw [ht]; exact List.nodup_nil) (by rw [ht]; simp)

theorem pager (h : x.Tracks log history unread) (s : System) : (s.pagerOf x).WF := h.wf s.file

theorem touched_isSome (h : x.Tracks log history unread) (hin : x.inTxn = true) : x.mem.touched.isSome :=
  h.inTxn_eq ▸ hin

theorem touched_eq_none (h : x.Tracks log history unread) (hin : x.inTxn = false) : x.mem.touched = none := by
  have := h.inTxn_eq
  rw [hin] at this
  simpa using this.symm

theorem fetches {f : Bytes} (h : x.Tracks log history unread) {n : Nat} {im : Image}
    (hf : Pager.Fetches { x.mem with file := f } p n im) :
    Tracks ⟨p.toPagerMem, x.walPos, x.inTxn⟩ log history unread := by
  refine h.store (hf.wf (h.wf f)) ?_ ?_ ?_
  · rw [hf.touched_eq]; exact h.inTxn_eq
  · rw [hf.touched_eq]; exact h.touched_nodup
  · rw [hf.touched_eq, hf.numPages_eq]; exact h.touched_lt

theorem writes {f : Bytes} (h : x.Tracks log history unread) {n : Nat} {data : Bytes}
    (hw : Pager.Writes { x.mem with file := f } p n data) :
    Tracks ⟨p.toPagerMem, x.walPos, x.inTxn⟩ log history unread := by
  have htouched : p.touched = x.mem.touched.map (·.insert n) := hw.touched_eq
  have hnum : p.numPages = max x.mem.numPages (n + 1) := hw.numPages_eq
  refine h.store hw.wf ?_ ?_ fun m hm => ?_
  · rw [htouched, h.inTxn_eq]; cases x.mem.touched <;> rfl
  · rw [htouched]
    cases hx : x.mem.touched with
    | none => exact List.nodup_nil
    | some l => have := h.touched_nodup; rw [hx] at this; exact this.insert
  · rw [hnum]
    rw [htouched] at hm
    cases hx : x.mem.touched with
    | none => rw [hx] at hm; cases hm
    | some l =>
      have hlt := h.touched_lt
      rw [hx] at hm hlt
      rcases List.mem_insert_iff.1 hm with rfl | hm
      · omega
      · have := hlt m hm; omega

/-- The session adopted the first ones of the batches it had not read. -/
theorem advance {adopted : List Batch} (h : x.Tracks log history (adopted ++ unread)) (hwf : p.WF)
    (ht : p.touched = none) :
    Tracks ⟨p.toPagerMem, x.walPos + (blobs adopted).length, false⟩ log history unread := by
  have hlen := congrArg List.length h.position
  rw [List.length_drop, blobs_append, List.length_append] at hlen
  have hle := h.pos_le
  refine ⟨hwf.file, by rw [ht]; rfl, by rw [ht]; exact List.nodup_nil, by rw [ht]; simp,
    h.header_le.trans (Nat.le_add_right _ _), ?_, ?_, ?_⟩
  · show x.walPos + (blobs adopted).length ≤ log.length
    omega
  · show log.drop (x.walPos + (blobs adopted).length) = blobs unread
    rw [← List.drop_drop, h.position, blobs_append, List.drop_left]
  · obtain ⟨pre, hpre⟩ := h.suffix
    exact ⟨pre ++ adopted.map Batch.pages, by rw [hpre, List.map_append, List.append_assoc]⟩

/-- Another session commits. -/
theorem append (h : x.Tracks log history unread) (b : Batch) :
    x.Tracks (log ++ b.blob) (history ++ [b.pages]) (unread ++ [b]) := by
  refine ⟨h.wf, h.inTxn_eq, h.touched_nodup, h.touched_lt, h.header_le, ?_, ?_, ?_⟩
  · rw [List.length_append]
    exact h.pos_le.trans (Nat.le_add_right _ _)
  · rw [List.drop_append_of_le_length h.pos_le, h.position, blobs_append, blobs_cons, blobs_nil, List.append_nil]
  · obtain ⟨pre, hpre⟩ := h.suffix
    exact ⟨pre, by rw [hpre, List.map_append, List.append_assoc]; rfl⟩

end Session.Tracks

namespace System
variable {s t : System} {i : Nat}

theorem sound_congr (h : Sound s) (hlog : t.log = s.log) (hhist : t.history = s.history) (hsess : t.sess = s.sess)
    (hend : s.sharedEnd.getD 0 ≤ t.sharedEnd.getD 0)
    (hcur : ∀ i, t.refreshed = some i → ∃ x, t.sess.lookup i = some x ∧ x.inTxn = false ∧ t.log.drop x.walPos = []) :
    Sound t where
  pending := by rw [hlog, hhist]; exact h.pending
  published := by rw [hlog]; exact h.published.imp_right fun hl => hl.trans hend
  tracks := by rw [hlog, hhist, hsess]; exact h.tracks
  current := hcur

theorem sound_openFiles {cacheSize : Nat} (h : Sound s) (hok : OpenAlone s (.open i cacheSize))
    (ht : s.openFiles i cacheSize = some t) : Sound t := by
  obtain ⟨hc, pre, pend, log, -, -, -, -, hlen, hlog, rfl⟩ := openFiles_cases h hok ht
  have hdrop : log.drop Wal.header.length = [] := List.drop_of_length_le hlen.le
  refine ⟨⟨s.history, [], (List.append_nil _).symm, hdrop⟩, .inl hlen.le, fun k y hy => ?_, fun k hk => by cases hk⟩
  change (s.store i _ _).sess.lookup k = some y at hy
  rw [lookup_store] at hy
  split at hy
  · cases hy
    exact ⟨[], Pager.WF.file (Pager.wf_openFile _ _ hc), rfl, List.nodup_nil, fun n hn => absurd hn List.not_mem_nil,
      hlen.ge, Nat.le_refl _, List.drop_length, s.history, (List.append_nil _).symm⟩
  · -- another open session keeps the log as it is
    rcases hlog with rfl | hk
    · exact h.tracks k y hy
    · rw [lookup_of_keys hk] at hy
      cases hy

theorem sound_get {n : Nat} (h : Sound s) (ht : s.get i n = some t) : Sound t := by
  obtain ⟨x, im, p, hx, hg, rfl⟩ := get_cases ht
  obtain ⟨unread, htr⟩ := h.tracks i x hx
  exact sound_store h ⟨unread, htr.fetches (Pager.fetches_get (htr.wf s.file) hg)⟩

theorem sound_open {cacheSize : Nat} (h : Sound s) (hok : OpenAlone s (.open i cacheSize))
    (ht : s.openSession i cacheSize = some t) : Sound t := by
  obtain ⟨u, hu, ht⟩ := openSession_cases ht
  exact sound_get (sound_openFiles h hok hu) ht

theorem sound_checkpoint (h : Sound s) (ht : s.checkpoint i = some t) : Sound t := by
  obtain ⟨x, p, hx, hin, halone, hf, rfl⟩ := checkpoint_cases ht
  obtain ⟨unread, htr⟩ := h.tracks i x hx
  have hnone := htr.touched_eq_none hin
  have hwf := Pager.wf_flush (htr.wf s.file) hnone hf
  have htouched : p.touched = none := (Pager.flush_fields (htr.wf s.file) hf).2.2.2.1.trans hnone
  refine ⟨⟨s.history, [], (List.append_nil _).symm, List.drop_length⟩, .inl (Nat.le_refl _), fun k y hy => ?_,
    fun k hk => by cases hk⟩
  change (s.store i _ _).sess.lookup k = some y at hy
  rw [lookup_store] at hy
  split at hy
  · cases hy
    exact ⟨[], hwf.file, by rw [htouched]; exact hin, by rw [htouched]; exact List.nodup_nil, by rw [htouched]; simp,
      Nat.le_refl _, Nat.le_refl _, List.drop_length, s.history, (List.append_nil _).symm⟩
  · rw [(alone_iff s i).1 halone k ‹_›] at hy
    cases hy

theorem sound_rollback (h : Sound s) (ht : s.rollback i = some t) : Sound t := by
  obtain ⟨x, hx, hin, rfl⟩ := rollback_cases ht
  obtain ⟨unread, htr⟩ := h.tracks i x hx
  exact sound_store h ⟨unread, htr.store_of_not_touched (Pager.wf_rollbackTxn (htr.wf s.file)) rfl⟩

theorem sound_drop (h : Sound s) (ht : s.drop i = some t) : Sound t := by
  obtain ⟨x, p, hx, hf, rfl⟩ := drop_cases ht
  refine ⟨h.pending, h.published, fun k y hy => ?_, fun k hk => by cases hk⟩
  by_cases hk : k = i
  · subst hk
    rw [AList.lookup_erase] at hy
    cases hy
  · rw [AList.lookup_erase_ne hk] at hy
    exact h.tracks k y hy

theorem sound_refresh {reads : List (List Nat)} (h : Sound s) (ht : s.refresh i reads = some t) : Sound t := by
  obtain ⟨x, unread, hx, htr, hcase⟩ := refresh_cases h ht
  rcases hcase with ⟨-, rfl⟩ | ⟨hin, hnil, e, he, rfl⟩ | ⟨hin, r, hr, -, rfl⟩
  · exact sound_congr h rfl rfl rfl (Nat.le_refl _) fun k hk => by cases hk
  · obtain rfl := hnil
    exact sound_congr h rfl rfl rfl he fun k hk => by cases hk; exact ⟨x, hx, hin, htr.position⟩
  · have hok := Pager.adoptsOk_of_forall (E := fun _ _ => True) (fun _ _ => trivial) (Wal.located x.walPos unread) reads (s.pagerOf x)
    obtain ⟨adopted, unread', rfl, hpos, hP, hdone⟩ := Pager.adoptAll_induct
      (P := fun p _ => p.WF ∧ p.touched = none)
      (fun p p' n im _ hp hg _ => by
        have hf := Pager.fetches_get hp.1 hg
        exact ⟨hf.wf hp.1, hf.touched_eq.trans hp.2⟩)
      (fun p b _ hp => by
        have ha := Pager.adopts_adopt p b.pages b.numPages
        exact ⟨ha.wf hp.1 hp.2 b.page_length, ha.touched_eq.trans hp.2⟩)
      hok ⟨htr.wf s.file, htr.touched_eq_none hin⟩
    have h' := htr.advance hP.1 hP.2
    rw [← hpos, ← hr, ← hin] at h'
    refine sound_congr (sound_store h ⟨unread', h'⟩) rfl rfl rfl (Nat.le_refl _) fun k hk => ?_
    change (if r.2.2 then some i else none) = some k at hk
    split at hk
    · rename_i hr2
      cases hk
      rw [← hr] at hdone
      refine ⟨⟨r.1.toPagerMem, r.2.1, x.inTxn⟩, AList.lookup_insert _, hin, ?_⟩
      have := h'.position
      rwa [hdone hr2] at this
    · cases hk

theorem sound_commit (h : Sound s) (ht : s.commit i = some t) : Sound t := by
  obtain ⟨x, hx, hin, ⟨-, rfl⟩ | ⟨b, -, -, -, rfl⟩⟩ := commit_cases h ht
  all_goals obtain ⟨unread, htr⟩ := h.tracks i x hx
  · exact sound_store h ⟨unread, htr.store_of_not_touched (Pager.wf_commit (htr.wf s.file)) rfl⟩
  · obtain ⟨pre, pend, hhist, hlog⟩ := h.pending
    have hle : Wal.header.length ≤ s.log.length := htr.header_le.trans htr.pos_le
    refine ⟨⟨pre, pend ++ [b], ?_, ?_⟩, .inr (Nat.le_max_right _ _), fun k y hy => ?_, fun k hk => by cases hk⟩
    · show s.history ++ [b.pages] = _
      rw [hhist, List.map_append, List.append_assoc]
      rfl
    · show (s.log ++ b.blob).drop Wal.header.length = _
      rw [List.drop_append_of_le_length hle, hlog, blobs_append, blobs_cons, blobs_nil, List.append_nil]
    · change (s.store i _ _).sess.lookup k = some y at hy
      rw [lookup_store] at hy
      split at hy
      · cases hy
        have hw := Pager.wf_commit (htr.wf s.file)
        refine ⟨[], hw.file, rfl, List.nodup_nil, fun n hn => absurd hn List.not_mem_nil, ?_, Nat.le_refl _,
          List.drop_length, _, (List.append_nil _).symm⟩
        show Wal.header.length ≤ (s.log ++ b.blob).length
        rw [List.length_append]
        omega
      · obtain ⟨unread', htr'⟩ := h.tracks k y hy
        exact ⟨_, htr'.append b⟩

theorem sound_step (h : Sound s) {a : Action} (hok : OpenAlone s a) (ht : s.step a = some t) : Sound t := by
  cases a with
  | «open» i cacheSize => exact sound_open h hok ht
  | refresh i reads => exact sound_refresh h ht
  | get i n => exact sound_get h ht
  | begin i =>
    obtain ⟨x, hx, hin, -, rfl⟩ := begin_cases ht
    obtain ⟨unread, htr⟩ := h.tracks i x hx
    exact sound_store h ⟨unread, htr.store (Pager.wf_begin (htr.wf s.file)) rfl List.nodup_nil (by simp)⟩
  | write i n data =>
    obtain ⟨x, p, hx, hin, hw, rfl⟩ := write_cases ht
    obtain ⟨unread, htr⟩ := h.tracks i x hx
    exact sound_store h ⟨unread, htr.writes (Pager.writes_write (htr.wf s.file) (htr.touched_isSome hin) hw)⟩
  | allocate i =>
    obtain ⟨x, hx, hin, rfl⟩ := allocate_cases ht
    obtain ⟨unread, htr⟩ := h.tracks i x hx
    exact sound_store h ⟨unread, htr.writes (Pager.writes_allocate (htr.wf s.file) (htr.touched_isSome hin))⟩
  | commit i => exact sound_commit h ht
  | rollback i => exact sound_rollback h ht
  | checkpoint i => exact sound_checkpoint h ht
  | close i checkpoint =>
    obtain ⟨x, s1, s2, -, h1, h2, h3⟩ := close_cases ht
    have hs1 : Sound s1 := by
      rcases h1 with ⟨-, h1⟩ | ⟨-, rfl⟩
      exacts [sound_rollback h h1, h]
    have hs2 : Sound s2 := by
      rcases h2 with ⟨-, h2⟩ | ⟨-, rfl⟩
      exacts [sound_checkpoint hs1 h2, hs1]
    exact sound_drop hs2 h3

theorem sound_init (file : Bytes) {log : Bytes} (h : log.length ≤ Wal.header.length) : Sound (init file log) where
  pending := ⟨[], [], rfl, List.drop_of_length_le h⟩
  published := .inl h
  tracks i x hx := by cases hx
  current i hi := by cases hi

/-! ### Running forward -/

theorem step_commit {x : Session} {p : Pager} (b : Batch) (hx : s.sess.lookup i = some x) (hin : x.inTxn = true)
    (hc : (s.pagerOf x).collectCommit = .ok (b.pages, b.numPages, p)) (hne : b.pages ≠ []) :
    s.step (.commit i) = some { s.store i { x with inTxn := false, walPos := (s.log ++ b.blob).length } p with
      log := s.log ++ b.blob
      sharedEnd := some (max (s.sharedEnd.getD 0) (s.log ++ b.blob).length)
      history := s.history ++ [b.pages] } := by
  have hempty : b.pages.isEmpty = false := by simpa using hne
  simp only [step, commit, hx, hin, hc, Wal.appendBatch_eq, if_true, hempty, Bool.false_eq_true, if_false]

theorem step_get {x : Session} {p : Pager} {n : Nat} {im : Image} (hx : s.sess.lookup i = some x)
    (hg : (s.pagerOf x).get n = .ok (im, p)) : s.step (.get i n) = some (s.store i x p) := by
  simp only [step, get, hx, hg]

theorem step_begin {x : Session} (hx : s.sess.lookup i = some x) (hin : x.inTxn = false)
    (hnone : x.mem.touched = none) : s.step (.begin i) =
      some (s.store i { x with inTxn := true } { s.pagerOf x with touched := some [], shadow := ∅ }) := by
  have hb : (s.pagerOf x).beginTxn = .ok { s.pagerOf x with touched := some [], shadow := ∅ } := by
    simp only [Pager.beginTxn, pagerOf, hnone, Option.isSome_none, Bool.false_eq_true, if_false]
  simp only [step, begin, hx, hin, hb, Bool.false_eq_true, if_false]

theorem step_write {x : Session} {p : Pager} {n : Nat} {data : Bytes} (hx : s.sess.lookup i = some x)
    (hin : x.inTxn = true) (hw : (s.pagerOf x).write n data = .ok p) :
    s.step (.write i n data) = some (s.store i x p) := by
  simp only [step, write, hx, hin, hw, if_true]

theorem step_rollback {x : Session} (hx : s.sess.lookup i = some x) (hin : x.inTxn = true) :
    s.step (.rollback i) = some (s.store i { x with inTxn := false } (s.pagerOf x).rollbackTxn) := by
  simp only [step, rollback, hx, hin, if_true]

theorem step_refresh {x : Session} {unread : List Batch} (reads : List (List Nat)) (hx : s.sess.lookup i = some x)
    (hin : x.inTxn = false) (hpos : s.log.drop x.walPos = blobs unread) (hlt : x.walPos < s.sharedEnd.getD x.walPos)
    (hstop : s.log.length ≤ s.sharedEnd.getD x.walPos) :
    s.step (.refresh i reads) =
      let r := (s.pagerOf x).adoptAll (Wal.located x.walPos unread) reads x.walPos
      some { s.store i { x with walPos := r.2.1 } r.1 with refreshed := if r.2.2 then some i else none } := by
  simp only [step, refresh, hx, hin, Bool.false_eq_true, if_false]
  rw [if_neg (by omega), Wal.readBatchesFrom_eq hpos hstop]

theorem step_refresh_nil {x : Session} {e : Nat} (reads : List (List Nat)) (hx : s.sess.lookup i = some x)
    (hin : x.inTxn = false) (hend : s.sharedEnd = some e) (hle : e ≤ x.walPos) :
    s.step (.refresh i reads) = some { s with sharedEnd := some e, refreshed := some i } := by
  simp only [step, refresh, hx, hin, hend, Option.getD_some, Bool.false_eq_true, if_false, hle, if_true]

theorem drop_eq {x : Session} {p : Pager} (hx : s.sess.lookup i = some x) (hf : (s.pagerOf x).flush = .ok p) :
    s.drop i = some { s with file := p.file, sess := s.sess.erase i, refreshed := none } := by
  simp only [drop, hx, hf]

theorem step_close {x : Session} {p : Pager} {checkpoint : Bool} (hx : s.sess.lookup i = some x) (hin : x.inTxn = false)
    (hnot : ¬ (checkpoint = true ∧ s.alone i = true)) (hf : (s.pagerOf x).flush = .ok p) :
    s.step (.close i checkpoint) = some { s with file := p.file, sess := s.sess.erase i, refreshed := none } := by
  simp only [step, close, hx, hin, Bool.false_eq_true, if_false, Option.bind_some, if_neg hnot, drop_eq hx hf]

theorem checkpoint_eq {x : Session} {p : Pager} (hx : s.sess.lookup i = some x) (hin : x.inTxn = false)
    (halone : s.alone i = true) (hf : (s.pagerOf x).flush = .ok p) : s.checkpoint i =
      some { s.store i { x with walPos := Wal.header.length } p with log := Wal.header } := by
  simp only [checkpoint, hx, hin, halone, hf, and_self, if_true]

/-- The last close flushes, resets the log and flushes once more. -/
theorem step_close_last {x : Session} {p p' : Pager} (hx : s.sess.lookup i = some x) (hin : x.inTxn = false)
    (halone : s.alone i = true) (hf : (s.pagerOf x).flush = .ok p) (hf' : p.flush = .ok p') :
    s.step (.close i true) = some { s with
      file := p'.file
      log := Wal.header
      sess := (s.sess.insert i { x with walPos := Wal.header.length, mem := p.toPagerMem }).erase i
      refreshed := none } := by
  have hcheckpoint := checkpoint_eq hx hin halone hf
  simp only [step, close, hx, hin, Bool.false_eq_true, if_false, Option.bind_some, halone, and_self, if_true,
    hcheckpoint]
  exact drop_eq (AList.lookup_insert _) hf'

theorem keys_of_lookup (h : ∀ k, s.sess.lookup k = none) : s.sess.keys = [] :=
  List.eq_nil_iff_forall_not_mem.2 fun k hk => AList.lookup_eq_none.1 (h k) (AList.mem_keys.2 hk)

/-- Session `i` closes last: what it has dirty goes to the file. -/
theorem exists_close_last {x : Session} (hs : Sound s) (hx : s.sess.lookup i = some x) (hin : x.inTxn = false)
    (halone : ∀ k, k ≠ i → s.sess.lookup k = none) :
    ∃ t, s.step (.close i true) = some t ∧ t.sess.keys = [] ∧ t.committed = s.committed ∧
      ∀ n ∈ x.mem.pool.dirty, readPage t.file n = (s.pagerOf x).content n := by
  obtain ⟨unread, htr⟩ := hs.tracks i x hx
  obtain ⟨f, hf, hread⟩ := Pager.flush_eq (htr.pager s)
  have hwf := Pager.wf_flush (htr.pager s) (htr.touched_eq_none hin) hf
  obtain ⟨f', hf', hread'⟩ := Pager.flush_eq hwf
  refine ⟨_, step_close_last hx hin ((alone_iff s i).2 halone) hf hf', keys_of_lookup fun k => ?_, rfl, fun n hn => ?_⟩
  · by_cases hk : k = i
    · subst hk; exact AList.lookup_erase _ _
    · exact (AList.lookup_erase_ne hk).trans ((AList.lookup_insert_ne hk).trans (halone k hk))
  · exact (hread' n).trans ((hread n).trans (if_pos hn))

/-- Session `k` closes while session `i` is open. -/
theorem exists_close {x y : Session} {k : Nat} (hs : Sound s) (hx : s.sess.lookup i = some x)
    (hy : s.sess.lookup k = some y) (hin : y.inTxn = false) (hik : i ≠ k) :
    ∃ t, s.step (.close k true) = some t ∧ t.sess = s.sess.erase k ∧ t.committed = s.committed ∧
      ∀ n ∈ y.mem.pool.dirty, readPage t.file n = (s.pagerOf y).content n := by
  obtain ⟨unread, htr⟩ := hs.tracks k y hy
  obtain ⟨f, hf, hread⟩ := Pager.flush_eq (htr.pager s)
  have hnot : ¬ ((true = true) ∧ s.alone k = true) := fun ⟨_, h⟩ => by
    rw [(alone_iff s k).1 h i hik] at hx
    cases hx
  exact ⟨_, step_close hy hin hnot hf, rfl, rfl, fun n hn => (hread n).trans (if_pos hn)⟩

/-- Actions of sessions that take turns: all sessions open before the first commit, a transaction begins right
after a refresh and when no other one is open, nothing is read, and nothing is rolled back. -/
def Plain (s : System) : Action → Prop
  | .open _ _ => s.log.length ≤ Wal.header.length
  | .refresh _ reads => reads = []
  | .begin i => s.refreshed = some i ∧ ∀ k y, s.sess.lookup k = some y → y.inTxn = false
  | .write _ _ _ => True
  | .commit i => ∀ x, s.sess.lookup i = some x → x.walPos = s.log.length
  | .get _ _ | .allocate _ | .rollback _ | .checkpoint _ | .close _ _ => False

theorem length_marked : (padTo pageSize [1]).length = pageSize := length_padTo (by decide)

theorem getD_marked : (padTo pageSize [1]).getD 0 0 = 1 := by rw [getD_padTo]; rfl

/-- An open returns when recovery does. -/
theorem exists_open_of_recover {cacheSize applied : Nat} {file : Bytes} (hc : 0 < cacheSize)
    (hx : s.sess.lookup i = none) (hrec : Wal.recover s.log s.file = .ok (file, applied)) :
    ∃ t x, s.step (.open i cacheSize) = some t ∧ t.sess = s.sess.insert i x ∧
      ({ x.mem with file := file } : Pager) = Pager.loaded file cacheSize hc ∧ x.walPos = t.log.length ∧
      x.inTxn = false ∧ t.log = (if 0 < applied then Wal.header else Wal.openLog s.log) ∧ t.file = file ∧
      t.history = s.history ∧ t.orig = s.orig ∧ t.sharedEnd = s.sharedEnd := by
  set log := if 0 < applied then Wal.header else Wal.openLog s.log with hlog
  set u : System := { s.store i ⟨(Pager.openFile file cacheSize hc).toPagerMem, log.length, false⟩
    (Pager.openFile file cacheSize hc) with log := log }
  have hopen : s.openFiles i cacheSize = some u := by
    rw [openFiles, dif_pos ⟨hc, AList.lookup_eq_none.1 hx⟩, hrec]
  have hget := step_get (s := u) (AList.lookup_insert _) (Pager.get_openFile file cacheSize hc)
  refine ⟨_, ⟨(Pager.loaded file cacheSize hc).toPagerMem, log.length, false⟩,
    (Option.bind_eq_some_iff.2 ⟨u, hopen, hget⟩ : s.openSession i cacheSize = _), AList.insert_insert .., rfl, rfl, rfl,
    rfl, rfl, rfl, rfl, rfl⟩

/-- An open that finds no batch in the log. -/
theorem step_open {cacheSize : Nat} (hc : 0 < cacheSize) (hx : s.sess.lookup i = none)
    (hlog : s.log.drop Wal.header.length = []) : ∃ t x, s.step (.open i cacheSize) = some t ∧
      t.sess = s.sess.insert i x ∧ s.pagerOf x = Pager.loaded s.file cacheSize hc ∧
      x.walPos = t.log.length ∧ x.inTxn = false ∧ t.log = Wal.openLog s.log ∧ t.file = s.file ∧
      t.history = s.history ∧ t.orig = s.orig ∧ t.sharedEnd = s.sharedEnd :=
  exists_open_of_recover hc hx (Wal.recover_eq (show s.log.drop _ = blobs [] ++ [] by rw [hlog]; rfl) Wal.torn_nil s.file)

/-- A commit makes the pages it wrote the committed ones. -/
theorem committed_commit {p : Pager} {b : Batch} (hb : b.pages = p.touchedPages.map fun n => (n, p.content n))
    (hhist : t.history = s.history ++ [b.pages]) (horig : t.orig = s.orig) (n : Nat) :
    t.committed n = if n ∈ p.touched.getD [] then p.content n else s.committed n := by
  rw [committed, hhist, horig, List.flatten_append, imageAfter_append, List.flatten_singleton, hb, imageAfter_map]
  simp only [Pager.touchedPages, List.mem_insertionSort]
  rfl

/-- `t` is `s` after session `i` has gone from `x` to `y` by a transaction that writes `data` to page `n`. -/
structure Updates (s : System) (i : Nat) (x : Session) (n : Nat) (data : Bytes) (t : System) (y : Session) : Prop where
  lookup : t.sess.lookup i = some y
  others : ∀ k, k ≠ i → t.sess.lookup k = s.sess.lookup k
  inTxn : y.inTxn = false
  walPos : y.walPos = t.log.length
  log : ∃ b : Batch, b.pages = [(n, padTo pageSize data)] ∧ b.numPages = max x.mem.numPages (n + 1) ∧
    t.log = s.log ++ b.blob
  sharedEnd : t.sharedEnd = some (max (s.sharedEnd.getD 0) t.log.length)
  history : t.history = s.history ++ [[(n, padTo pageSize data)]]
  file : t.file = s.file
  committed : ∀ m, t.committed m = if m = n then padTo pageSize data else s.committed m
  mem_dirty : ∀ m, m ∈ y.mem.pool.dirty ↔ m = n ∨ m ∈ x.mem.pool.dirty
  content : ∀ m, (t.pagerOf y).content m = if m = n then padTo pageSize data else (s.pagerOf x).content m
  numPages : y.mem.numPages = max x.mem.numPages (n + 1)

theorem exists_updates (n : Nat) (data : Bytes) {x : Session} (hs : Sound s) (hx : s.sess.lookup i = some x)
    (hin : x.inTxn = false) (hpos : x.walPos = s.log.length) (hlen : data.length ≤ pageSize)
    (hnum : max x.mem.numPages (n + 1) < 256 ^ 4) : ∃ t y, Updates s i x n data t y ∧ ∀ ok : System → Action → Prop,
      ok s (.begin i) → (∀ u, ok u (.write i n data)) →
      (∀ u, (∀ z, u.sess.lookup i = some z → z.walPos = u.log.length) → ok u (.commit i)) →
      Run step ok s [.begin i, .write i n data, .commit i] t := by
  obtain ⟨unread, htr⟩ := hs.tracks i x hx
  have h1 := step_begin hx hin (htr.touched_eq_none hin)
  set p1 : Pager := { s.pagerOf x with touched := some [], shadow := ∅ } with hp1
  set s1 := s.store i { x with inTxn := true } p1
  have hx1 : s1.sess.lookup i = some ⟨p1.toPagerMem, x.walPos, true⟩ := AList.lookup_insert _
  have hs1 : Sound s1 := sound_step hs (a := .begin i) trivial h1
  obtain ⟨p2, hwrite⟩ : ∃ p2, p1.write n data = .ok p2 := by
    unfold Pager.write
    rw [if_neg (Nat.not_lt.2 hlen)]
    exact ⟨_, rfl⟩
  have hw := Pager.writes_write (Pager.wf_begin (htr.pager s)) rfl hwrite
  have h2 : s1.step (.write i n data) = some (s1.store i ⟨p1.toPagerMem, x.walPos, true⟩ p2) := step_write hx1 rfl hwrite
  set s2 := s1.store i ⟨p1.toPagerMem, x.walPos, true⟩ p2
  have hx2 : s2.sess.lookup i = some ⟨p2.toPagerMem, x.walPos, true⟩ := AList.lookup_insert _
  have hs2 : Sound s2 := sound_step hs1 (a := .write i n data) trivial h2
  obtain ⟨unread2, htr2⟩ := hs2.tracks i _ hx2
  have hnum2 : p2.numPages = max x.mem.numPages (n + 1) := hw.numPages_eq
  obtain ⟨b, hb, hbn⟩ := exists_batch_of_lt htr2 (hnum2 ▸ hnum)
  have htouched : p2.touchedPages = [n] := by
    rw [Pager.touchedPages, hw.touched_eq]
    simp
  have hpages : b.pages = [(n, padTo pageSize data)] := by
    rw [hb]
    show p2.touchedPages.map (fun n => (n, p2.content n)) = _
    rw [htouched, List.map_singleton, hw.content_eq, if_pos rfl]
  have hcollect : (s2.pagerOf ⟨p2.toPagerMem, x.walPos, true⟩).collectCommit =
      .ok (b.pages, b.numPages, { p2 with touched := none, shadow := ∅ }) := by
    rw [Pager.collectCommit_eq (p := s2.pagerOf _) (htr2.pager s2), hb, hbn]
    rfl
  have h3 := step_commit b hx2 rfl hcollect (by rw [hpages]; exact List.cons_ne_nil _ _)
  set t : System := { s2.store i ⟨p2.toPagerMem, (s2.log ++ b.blob).length, false⟩
      { p2 with touched := none, shadow := ∅ } with
    log := s2.log ++ b.blob
    sharedEnd := some (max (s2.sharedEnd.getD 0) (s2.log ++ b.blob).length)
    history := s2.history ++ [b.pages] }
  have hcontent : ∀ m, p2.content m = if m = n then padTo pageSize data else (s.pagerOf x).content m := hw.content_eq
  refine ⟨t, ⟨{ p2 with touched := none, shadow := ∅ }.toPagerMem, (s2.log ++ b.blob).length, false⟩,
    ⟨AList.lookup_insert _, fun k hk => ?_, rfl, rfl, ⟨b, hpages, hbn.trans hnum2, rfl⟩, rfl,
      congrArg (fun pages => s.history ++ [pages]) hpages, hw.file_eq,
      fun m => ?_,
      hw.mem_dirty, fun m => ?_, hnum2⟩, fun ok hok1 hok2 hok3 => ?_⟩
  · exact (AList.lookup_insert_ne hk).trans ((AList.lookup_insert_ne hk).trans (AList.lookup_insert_ne hk))
  · rw [committed_commit (p := p2) (t := t) (s := s2) hb rfl rfl m]
    have hmem : m ∈ p2.touched.getD [] ↔ m = n := by
      rw [hw.touched_eq]
      simp
    by_cases hm : m = n
    · rw [if_pos (hmem.2 hm), if_pos hm, hcontent, if_pos hm]
    · rw [if_neg (mt hmem.1 hm), if_neg hm]
      rfl
  · refine Eq.trans ?_ (hcontent m)
    show Pager.content { p2 with touched := none, shadow := ∅, file := p2.file } m = _
    rfl
  · refine .cons hok1 h1 (.cons (hok2 _) h2 (.cons (hok3 _ fun z hz => ?_) h3 (.nil _)))
    obtain rfl := Option.some.inj (hx2.symm.trans hz)
    exact hpos

/-- Session 0 commits page 1, and session 1, whose pool has room for `c + 1` pages, adopts it. -/
theorem exists_refreshed (file : Bytes) (c : Nat) (hfile : file.length / pageSize < 256 ^ 4) :
    ∃ s x y, Run step Plain (init file [])
        [.open 0 4, .open 1 (c + 1), .refresh 0 [], .begin 0, .write 0 1 [1], .commit 0, .refresh 1 []] s ∧
      s.refreshed = some 1 ∧ s.file = file ∧ s.sess.lookup 0 = some x ∧ s.sess.lookup 1 = some y ∧
      s.pagerOf y = (Pager.loaded file (c + 1) c.succ_pos).adopt [(1, padTo pageSize [1])]
        (max (max 1 (file.length / pageSize)) 2) ∧
      (∀ m, s.committed m = if m = 1 then padTo pageSize [1] else readPage file m) ∧ x.inTxn = false ∧ y.inTxn = false ∧
      (∀ m, m ∈ x.mem.pool.dirty ↔ m = 1) ∧ (s.pagerOf x).content 1 = padTo pageSize [1] ∧ x.walPos = s.log.length ∧
      s.sharedEnd = some s.log.length ∧ x.mem.numPages = max (max 1 (file.length / pageSize)) 2 ∧
      ∀ k, k ≠ 0 → k ≠ 1 → s.sess.lookup k = none := by
  obtain ⟨s1, z, h1, hsess1, hz, hzpos, hzin, hlog1, hfile1, hhist1, horig1, hend1⟩ :=
    step_open (s := init file []) (i := 0) (show 0 < 4 by decide) rfl rfl
  have hheader : Wal.openLog ([] : Bytes) = Wal.header := rfl
  rw [show (init file []).log = [] from rfl, hheader] at hlog1
  rw [hlog1] at hzpos
  have hnew : s1.sess.lookup 1 = none := by rw [hsess1, AList.lookup_insert_ne (by decide)]; rfl
  obtain ⟨s2, y, h2, hsess2, hy, hypos, hyin, hlog2, hfile2, hhist2, horig2, hend2⟩ :=
    step_open (s := s1) (i := 1) c.succ_pos hnew (by rw [hlog1]; exact List.drop_length)
  have hheader : Wal.openLog Wal.header = Wal.header := rfl
  rw [hlog1, hheader] at hlog2
  rw [hlog2] at hypos
  have hx2 : s2.sess.lookup 0 = some z := by
    rw [hsess2, AList.lookup_insert_ne (by decide), hsess1]
    exact AList.lookup_insert _
  have hy2 : s2.sess.lookup 1 = some y := by rw [hsess2]; exact AList.lookup_insert _
  have hend2 : s2.sharedEnd = none := hend2.trans hend1
  -- session 0 refreshes: nothing is published yet
  set s3 : System := { s2 with sharedEnd := some Wal.header.length, refreshed := some 0 } with hs3
  have h3 : s2.step (.refresh 0 []) = some s3 := by
    simp only [step, refresh, hx2, hzin, hend2, hzpos, Option.getD_none, Nat.le_refl, Bool.false_eq_true, if_false, if_true]
    rfl
  have hok1 : Plain (init file []) (.open 0 4) := Nat.zero_le _
  have hok2 : Plain s1 (.open 1 (c + 1)) := by rw [Plain, hlog1]
  have hrun3 : Run step Plain (init file []) [.open 0 4, .open 1 (c + 1), .refresh 0 []] s3 :=
    .cons hok1 h1 (.cons hok2 h2 (.cons rfl h3 (.nil _)))
  have hsound3 : Sound s3 := sound_step (sound_step (sound_step (sound_init file (Nat.zero_le _)) (a := .open 0 4)
    (.inl hok1) h1) (a := .open 1 (c + 1)) (.inl hok2) h2) (a := .refresh 0 []) trivial h3
  have hidle : ∀ k w, s3.sess.lookup k = some w → w.inTxn = false := by
    intro k w hw
    change s2.sess.lookup k = some w at hw
    rw [hsess2] at hw
    by_cases hk1 : k = 1
    · subst hk1
      cases (AList.lookup_insert _).symm.trans hw
      exact hyin
    · rw [AList.lookup_insert_ne hk1, hsess1] at hw
      by_cases hk0 : k = 0
      · subst hk0
        cases (AList.lookup_insert _).symm.trans hw
        exact hzin
      · rw [AList.lookup_insert_ne hk0] at hw
        cases hw
  have hznum : z.mem.numPages = max 1 (file.length / pageSize) := congrArg (fun p : Pager => p.numPages) hz
  -- session 0 commits page 1
  obtain ⟨t, x, hu, hrunu⟩ := exists_updates 1 [1] hsound3 hx2 hzin (hzpos.trans (by rw [hs3, hlog2]))
    (by decide) (by rw [hznum]; omega)
  have hrunu := hrunu Plain ⟨rfl, hidle⟩ (fun _ => trivial) fun _ h => h
  obtain ⟨b, hb, hnum, hlog⟩ := hu.log
  rw [show s3.log = Wal.header from hlog2] at hlog
  have hend : t.sharedEnd = some t.log.length := by
    rw [hu.sharedEnd, hlog, List.length_append]
    exact congrArg some (Nat.max_eq_right (Nat.le_add_right _ _))
  -- session 1 adopts it
  have hyt : t.sess.lookup 1 = some y := (hu.others 1 (by decide)).trans hy2
  have hdrop : t.log.drop y.walPos = blobs [b] := by
    rw [blobs_cons, blobs_nil, List.append_nil, hypos, hlog, List.drop_left]
  have hlt : y.walPos < t.sharedEnd.getD y.walPos := by
    have := b.length_blob_pos
    rw [hend, Option.getD_some, hlog, hypos, List.length_append]
    omega
  have h7 := step_refresh [] hyt hyin hdrop hlt (by rw [hend]; exact Nat.le_refl _)
  have htfile : t.file = file := hu.file.trans (hfile2.trans hfile1)
  have hview : t.pagerOf y = Pager.loaded file (c + 1) c.succ_pos := by
    rw [hfile1] at hy
    rw [pagerOf, htfile]
    rw [pagerOf, hfile1] at hy
    exact hy
  have hadopt : (Pager.loaded file (c + 1) c.succ_pos).adoptAll (Wal.located y.walPos [b]) [] y.walPos =
      ((Pager.loaded file (c + 1) c.succ_pos).adopt [(1, padTo pageSize [1])] (max (max 1 (file.length / pageSize)) 2),
        y.walPos + b.blob.length, true) := by
    simp only [Wal.located, Pager.adoptAll, hb, hnum, hznum]
    rfl
  rw [hview] at h7
  simp only [hadopt, if_true] at h7
  set q := (Pager.loaded file (c + 1) c.succ_pos).adopt [(1, padTo pageSize [1])] (max (max 1 (file.length / pageSize)) 2)
  have hqfile : q.file = file := (Pager.adopts_adopt (Pager.loaded file (c + 1) c.succ_pos) _ _).file_eq
  have hcommitted : ∀ m, t.committed m = if m = 1 then padTo pageSize [1] else readPage file m := by
    intro m
    rw [hu.committed]
    refine if_congr Iff.rfl rfl ?_
    show imageAfter s2.history.flatten (readPage s2.orig m) m = _
    rw [hhist2, hhist1, horig2, horig1]
    rfl
  have hx7 : (t.sess.insert 1 ⟨q.toPagerMem, y.walPos + b.blob.length, y.inTxn⟩).lookup 0 = some x :=
    (AList.lookup_insert_ne (by decide)).trans hu.lookup
  refine ⟨_, x, ⟨q.toPagerMem, y.walPos + b.blob.length, y.inTxn⟩, (hrun3.append hrunu).append (.single rfl h7), rfl, hqfile,
    hx7, AList.lookup_insert _, ?_, hcommitted, hu.inTxn, hyin, fun m => ?_, ?_, hu.walPos, hend,
    hu.numPages.trans (by rw [hznum]), fun k h0 h1 => ?_⟩
  · rfl
  · rw [hu.mem_dirty]
    refine or_iff_left fun hm => ?_
    rw [show z.mem.pool.dirty = [] from congrArg (fun p : Pager => p.pool.dirty) hz] at hm
    cases hm
  · have hcontent := hu.content 1
    rw [if_pos rfl] at hcontent
    rw [← hcontent]
    show Pager.content { x.mem with file := q.file } 1 = Pager.content { x.mem with file := t.file } 1
    rw [hqfile, htfile]
  · refine (AList.lookup_insert_ne h1).trans ((hu.others k h0).trans ?_)
    show s2.sess.lookup k = none
    rw [hsess2, AList.lookup_insert_ne h1, hsess1, AList.lookup_insert_ne h0]
    rfl

end System

end LeafDb
