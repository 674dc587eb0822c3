import LeafDb.PagerContent

/-!
# Transactions and flushing on one pager

A rollback puts back the image every page had (`content_rollbackTxn`), but marks it clean whatever it
was before: `clean_rollbackTxn` needs the file to have the pre-images already. A commit hands out the
current image of every touched page, and a flush brings the file up to the pool.
-/

namespace LeafDb.Pager

/-! ### `begin_txn` -/

theorem beginTxn_eq_ok {p p' : Pager} (h : p.beginTxn = .ok p') :
    p.touched = none ∧ p' = { p with touched := some [], shadow := ∅ } := by
  unfold beginTxn at h
  split at h
  · cases h
  · rename_i ht
    cases h
    exact ⟨by simpa using ht, rfl⟩

theorem Live.begin {p : Pager} (h : p.Live) : Live { p with touched := some [], shadow := ∅ } where
  cached_length := h.cached_length
  cached_id := h.cached_id
  shadow_length n im hs := by simp at hs
  shadow_id n im hs := by simp at hs
  dirty_cached := h.dirty_cached
  shadow_touched n := by simp
  touched_cached n hn := by simp at hn
  nextId_pos := h.nextId_pos
  numPages_pos := h.numPages_pos

theorem wf_begin {p : Pager} (h : p.WF) : WF { p with touched := some [], shadow := ∅ } :=
  h.live.begin.wf (by simp)

theorem base_begin (p : Pager) (n : Nat) : base { p with touched := some [], shadow := ∅ } n = p.content n := by
  simp [base, content, cached]

/-! ### `rollback_txn` -/

theorem mem_discardDirty {b : BufferPool} {n m : Nat} : m ∈ (b.discardDirty n).dirty ↔ m ∈ b.dirty ∧ m ≠ n := by
  simp [BufferPool.discardDirty]

theorem lookup_restore (b : BufferPool) (n : Nat) (c : Option Image) (m : Nat) :
    (restore b n c).pages.lookup m = if m = n then c else b.pages.lookup m := by
  cases c with
  | none =>
    show (b.pages.erase n).lookup m = _
    split
    · subst m; exact AList.lookup_erase _ _
    · exact AList.lookup_erase_ne ‹_›
  | some im =>
    show (b.pages.insert n im).lookup m = _
    split
    · subst m; exact AList.lookup_insert _
    · exact AList.lookup_insert_ne ‹_›

theorem mem_dirty_restore (b : BufferPool) (n : Nat) (c : Option Image) (m : Nat) :
    m ∈ (restore b n c).dirty ↔ m ∈ b.dirty ∧ m ≠ n := by
  cases c <;> simp [restore, mem_discardDirty, BufferPool.pop, BufferPool.put]

theorem capacity_restore (b : BufferPool) (n : Nat) (c : Option Image) :
    (restore b n c).capacity = b.capacity := by
  cases c <;> rfl

theorem foldl_restore (l : List (Sigma fun _ : Nat => Option Image)) (hl : l.NodupKeys) (b : BufferPool) :
    (∀ m, (l.foldl (fun b e => restore b e.1 e.2) b).pages.lookup m = (l.dlookup m).getD (b.pages.lookup m)) ∧
    (∀ m, m ∈ (l.foldl (fun b e => restore b e.1 e.2) b).dirty ↔ m ∈ b.dirty ∧ m ∉ l.keys) ∧
    (l.foldl (fun b e => restore b e.1 e.2) b).capacity = b.capacity := by
  induction l generalizing b with
  | nil => simp
  | cons e l ih =>
    obtain ⟨n, c⟩ := e
    obtain ⟨hn, hl⟩ := List.nodupKeys_cons.1 hl
    obtain ⟨ih1, ih2, ih3⟩ := ih hl (restore b n c)
    refine ⟨fun m => ?_, fun m => ?_, ih3.trans (capacity_restore b n c)⟩
    · show (l.foldl _ (restore b n c)).pages.lookup m = _
      rw [ih1, lookup_restore]
      by_cases hm : m = n
      · subst hm
        rw [List.dlookup_cons_eq, List.dlookup_eq_none.2 hn]
        simp
      · rw [List.dlookup_cons_ne _ _ hm, if_neg hm]
    · show m ∈ (l.foldl _ (restore b n c)).dirty ↔ _
      rw [ih2, mem_dirty_restore, List.keys_cons, List.mem_cons, not_or, and_assoc]

theorem nodupKeys_reverse (s : AList fun _ : Nat => Option Image) : s.entries.reverse.NodupKeys := by
  rw [List.NodupKeys, List.keys, List.map_reverse, List.nodup_reverse]
  exact s.nodupKeys

theorem cached_rollbackTxn (p : Pager) (n : Nat) :
    p.rollbackTxn.cached n = (p.shadow.lookup n).getD (p.cached n) := by
  have := (foldl_restore _ (nodupKeys_reverse p.shadow) p.pool).1 n
  rw [List.perm_dlookup n (nodupKeys_reverse p.shadow) (List.reverse_perm _)] at this
  exact this

theorem mem_dirty_rollbackTxn (p : Pager) (n : Nat) :
    n ∈ p.rollbackTxn.pool.dirty ↔ n ∈ p.pool.dirty ∧ n ∉ p.shadow := by
  have := (foldl_restore _ (nodupKeys_reverse p.shadow) p.pool).2.1 n
  rw [List.keys, List.map_reverse, List.mem_reverse] at this
  exact this

theorem Live.rollbackTxn {p : Pager} (h : p.Live) : p.rollbackTxn.Live where
  cached_length n im hc := by
    rw [cached_rollbackTxn] at hc
    cases hs : p.shadow.lookup n with
    | none => rw [hs] at hc; exact h.cached_length n im hc
    | some c =>
      rw [hs] at hc
      simp only [Option.getD_some] at hc
      subst hc
      exact h.shadow_length n im hs
  cached_id n im hc := by
    rw [cached_rollbackTxn] at hc
    cases hs : p.shadow.lookup n with
    | none => rw [hs] at hc; exact h.cached_id n im hc
    | some c =>
      rw [hs] at hc
      simp only [Option.getD_some] at hc
      subst hc
      exact h.shadow_id n im hs
  shadow_length n im hs := by simp [Pager.rollbackTxn] at hs
  shadow_id n im hs := by simp [Pager.rollbackTxn] at hs
  dirty_cached n hn := by
    obtain ⟨hd, hs⟩ := (mem_dirty_rollbackTxn p n).1 hn
    rw [cached_rollbackTxn, AList.lookup_eq_none.2 hs]
    exact h.dirty_cached n hd
  shadow_touched n := by simp [Pager.rollbackTxn]
  touched_cached n hn := by simp [Pager.rollbackTxn] at hn
  nextId_pos := h.nextId_pos
  numPages_pos := h.numPages_pos

theorem wf_rollbackTxn {p : Pager} (h : p.WF) : p.rollbackTxn.WF := h.live.rollbackTxn.wf (by simp [rollbackTxn])

/-- A rollback shows again what every page held when the transaction began. -/
theorem content_rollbackTxn (p : Pager) (n : Nat) : p.rollbackTxn.content n = p.base n := by
  have hfile : p.rollbackTxn.file = p.file := rfl
  unfold content base
  rw [cached_rollbackTxn, hfile]
  cases p.shadow.lookup n with
  | none => rfl
  | some c => cases c <;> rfl

/-- The file has the pre-image of every page the transaction wrote (none of them was dirty when the
transaction began). -/
def ShadowOnFile (p : Pager) : Prop :=
  ∀ n im, p.shadow.lookup n = some (some im) → readPage p.file n = im.bytes

theorem clean_rollbackTxn {p : Pager} (h : p.Clean) (hs : p.ShadowOnFile) : p.rollbackTxn.Clean := by
  intro n im hc hd
  rw [cached_rollbackTxn] at hc
  rw [mem_dirty_rollbackTxn, not_and, not_not] at hd
  show readPage p.file n = im.bytes
  cases hl : p.shadow.lookup n with
  | none =>
    rw [hl] at hc
    refine h n im hc fun hd' => ?_
    have := AList.lookup_isSome.2 (hd hd')
    rw [hl] at this; cases this
  | some c =>
    rw [hl] at hc
    simp only [Option.getD_some] at hc
    subst hc
    exact hs n im hl

/-! ### `collect_commit` and `flush` -/

theorem poolImages_eq {b : BufferPool} {pages : List Nat} (h : ∀ n ∈ pages, (b.pages.lookup n).isSome) :
    poolImages b pages = .ok (pages.map fun n => (n, ((b.pages.lookup n).map Image.bytes).getD [])) := by
  induction pages with
  | nil => rfl
  | cons n pages ih =>
    obtain ⟨im, him⟩ := Option.isSome_iff_exists.mp (h n List.mem_cons_self)
    rw [poolImages, him]
    simp only [ih fun m hm => h m (List.mem_cons_of_mem _ hm), Except.map, List.map_cons, him,
      Option.map_some, Option.getD_some]

theorem poolImages_eq_content {p : Pager} {pages : List Nat} (h : ∀ n ∈ pages, (p.cached n).isSome) :
    poolImages p.pool pages = .ok (pages.map fun n => (n, p.content n)) := by
  rw [poolImages_eq h, Except.ok.injEq]
  refine List.map_congr_left fun n hn => ?_
  obtain ⟨im, him⟩ := Option.isSome_iff_exists.mp (h n hn)
  rw [content_of_cached him]
  rw [cached] at him
  simp [him]

/-- The pages of the open transaction, in ascending order. -/
def touchedPages (p : Pager) : List Nat := (p.touched.getD []).insertionSort (· ≤ ·)

/-- `collect_commit` does not raise, and hands out the current image of every touched page. -/
theorem Live.collectCommit {p : Pager} (h : p.Live) :
    p.collectCommit = .ok (p.touchedPages.map fun n => (n, p.content n), p.numPages,
      { p with touched := none, shadow := ∅ }) := by
  have himg := @poolImages_eq_content p p.touchedPages fun n hn => h.touched_cached n (by simpa [touchedPages] using hn)
  unfold Pager.collectCommit
  show (poolImages p.pool p.touchedPages).map _ = _
  rw [himg]
  rfl

theorem collectCommit_eq {p : Pager} (h : p.WF) :
    p.collectCommit = .ok (p.touchedPages.map fun n => (n, p.content n), p.numPages,
      { p with touched := none, shadow := ∅ }) :=
  h.live.collectCommit

theorem Live.commit {p : Pager} (h : p.Live) : Live { p with touched := none, shadow := ∅ } where
  cached_length := h.cached_length
  cached_id := h.cached_id
  shadow_length n im hs := by simp at hs
  shadow_id n im hs := by simp at hs
  dirty_cached := h.dirty_cached
  shadow_touched n := by simp
  touched_cached n hn := by simp at hn
  nextId_pos := h.nextId_pos
  numPages_pos := h.numPages_pos

theorem wf_commit {p : Pager} (h : p.WF) : WF { p with touched := none, shadow := ∅ } := h.live.commit.wf (by simp)

theorem readPage_writePages {f : Bytes} {pages : List Nat} {g : Nat → Bytes} (hg : ∀ n ∈ pages, (g n).length = pageSize)
    (m : Nat) : readPage (writePages f (pages.map fun n => (n, g n))) m =
      if m ∈ pages then g m else readPage f m := by
  induction pages generalizing f with
  | nil => simp [writePages]
  | cons n pages ih =>
    show readPage (writePages (writePage f n (g n)) (pages.map fun n => (n, g n))) m = _
    rw [ih fun k hk => hg k (List.mem_cons_of_mem _ hk), readPage_writePage (hg n List.mem_cons_self)]
    by_cases h1 : m ∈ pages
    · simp [h1]
    · by_cases h2 : m = n
      · simp [h2]
      · simp [h1, h2]

/-- `flush` does not raise; afterwards the file has every dirty page, and no page is dirty. -/
theorem Live.flush {p : Pager} (h : p.Live) :
    ∃ file, p.flush = .ok { p with file := file, pool := { p.pool with dirty := [] } } ∧
      ∀ n, readPage file n = if n ∈ p.pool.dirty then p.content n else readPage p.file n := by
  refine ⟨writePages p.file ((p.pool.dirty.insertionSort (· ≤ ·)).map fun n => (n, p.content n)), ?_,
    fun n => ?_⟩
  · unfold Pager.flush
    rw [poolImages_eq_content fun n hn => h.dirty_cached n (by simpa using hn)]
    rfl
  · rw [readPage_writePages fun m _ => h.length_content m]
    simp

theorem flush_eq {p : Pager} (h : p.WF) :
    ∃ file, p.flush = .ok { p with file := file, pool := { p.pool with dirty := [] } } ∧
      ∀ n, readPage file n = if n ∈ p.pool.dirty then p.content n else readPage p.file n :=
  h.live.flush

theorem readPage_flush {p p' : Pager} (h : p.WF) (hf : p.flush = .ok p') (n : Nat) :
    readPage p'.file n = if n ∈ p.pool.dirty then p.content n else readPage p.file n := by
  obtain ⟨file, hfl, hr⟩ := flush_eq h
  rw [hfl] at hf
  cases hf
  exact hr n

/-- With a clean pool a flush makes the file agree with what a reader gets. -/
theorem readPage_flush_of_clean {p p' : Pager} (h : p.WF) (hc : p.Clean) (hf : p.flush = .ok p') (n : Nat) :
    readPage p'.file n = p.content n := by
  rw [readPage_flush h hf]
  split
  · rfl
  · rename_i hd
    cases hp : p.cached n with
    | none => rw [content_of_not_cached hp]
    | some im => rw [content_of_cached hp, hc n im hp hd]

theorem wf_flush {p p' : Pager} (h : p.WF) (ht : p.touched = none) (hf : p.flush = .ok p') : p'.WF := by
  obtain ⟨file, hfl, -⟩ := flush_eq h
  rw [hfl] at hf
  cases hf
  exact {
    cached_length := h.cached_length
    cached_id := h.cached_id
    shadow_length := h.shadow_length
    shadow_id := h.shadow_id
    dirty_cached := fun n hn => by simp at hn
    shadow_touched := h.shadow_touched
    touched_dirty := fun n hn => by rw [ht] at hn; simp at hn
    nextId_pos := h.nextId_pos
    numPages_pos := h.numPages_pos }

theorem flush_fields {p p' : Pager} (h : p.WF) (hf : p.flush = .ok p') :
    (∀ n, p'.cached n = p.cached n) ∧ p'.pool.dirty = [] ∧ p'.numPages = p.numPages ∧
      p'.touched = p.touched ∧ p'.shadow = p.shadow := by
  obtain ⟨file, hfl, -⟩ := flush_eq h
  rw [hfl] at hf
  cases hf
  exact ⟨fun _ => rfl, rfl, rfl, rfl, rfl⟩

end LeafDb.Pager
