import LeafDb.PageCount

/-!
# A pager over a data file and a log

`Backed C stored logged p`: without its open transaction the pager `p` shows the images `C`, and the data file has the
pages of `C` except the pages `logged`, which are in the log. So the memory of the pager can be lost: no access, commit,
rollback or flush touches a page of the data file that the log does not have (`Backed.fetches`, `OnFile.flush`).
-/

namespace LeafDb

namespace Pager

variable {C C' : Nat → Bytes} {stored stored' : Nat → Prop} {logged : List Nat} {p p' : Pager} {n : Nat} {im : Image}
  {data : Bytes}

/-- The data file has the pages of `C`, except the pages `logged`. -/
structure OnFile (C : Nat → Bytes) (stored : Nat → Prop) (logged : List Nat) (file : Bytes) : Prop where
  read : ∀ n, n ∉ logged → readPage file n = C n
  stored : ∀ n, stored n → n ∈ logged ∨ (n + 1) * pageSize ≤ file.length

/-- The pages `logged` are dirty or on the data file, and every dirty page is logged or belongs to the transaction. -/
structure Backed (C : Nat → Bytes) (stored : Nat → Prop) (logged : List Nat) (p : Pager) : Prop where
  wf : p.WF
  nodup : (p.touched.getD []).Nodup
  touched_lt : ∀ n ∈ p.touched.getD [], n < p.numPages
  clean : p.Clean
  base : ∀ n, p.base n = C n
  dirty : ∀ n ∈ p.pool.dirty, n ∈ logged ∨ n ∈ p.touched.getD []
  covers : ∀ n ∈ logged, n ∈ p.pool.dirty ∨ (n + 1) * pageSize ≤ p.file.length
  shadow : ∀ n ∈ logged, p.shadow.lookup n ≠ some none
  numPages : ∀ n, stored n → n < p.numPages
  file : OnFile C stored logged p.file

/-- What a rollback puts back is on the data file. -/
def UndoOnFile (p : Pager) : Prop :=
  ∀ n im, p.shadow.lookup n = some (some im) → readPage p.file n = im.bytes ∧ (n + 1) * pageSize ≤ p.file.length

theorem OnFile.mono {file file' : Bytes} (h : OnFile C stored logged file)
    (hread : ∀ n, n ∉ logged → readPage file' n = readPage file n)
    (hlen : ∀ n, n ∉ logged → (n + 1) * pageSize ≤ file.length → (n + 1) * pageSize ≤ file'.length) :
    OnFile C stored logged file' where
  read n hn := (hread n hn).trans (h.read n hn)
  stored n hn := by
    by_cases hl : n ∈ logged
    · exact .inl hl
    · exact .inr (hlen n hl ((h.stored n hn).resolve_left hl))

/-! ### Accesses -/

/-- Page `n` is neither in the pool nor, as a whole, on the data file. -/
def MissesPage (p : Pager) (n : Nat) : Prop := p.cached n = none ∧ p.file.length < (n + 1) * pageSize

theorem shadow_evictIfFull (p : Pager) : p.evictIfFull.shadow = p.shadow := by
  have hloop : ∀ fuel (q : Pager), (evictLoop fuel q).shadow = q.shadow := by
    intro fuel
    induction fuel with
    | zero => exact fun q => rfl
    | succ fuel ih =>
      intro q
      unfold evictLoop
      split
      · rfl
      · rw [ih]
        unfold evictOldest
        split
        · rfl
        · split <;> rfl
  unfold evictIfFull
  split
  · rfl
  · exact hloop _ p

/-- Only for such a page a write keeps no image. -/
theorem shadow_putPage {m : Nat} (h : (p.putPage n im).shadow.lookup m = some none) :
    p.shadow.lookup m = some none ∨ MissesPage p m := by
  rw [putPage, install] at h
  simp only [shadow_evictIfFull] at h
  unfold saveShadow at h
  split at h
  swap
  · exact .inl h
  by_cases hmn : m = n
  swap
  · refine .inl ?_
    split at h
    · exact (AList.lookup_insert_ne hmn).symm.trans h
    · split at h <;> exact (AList.lookup_insert_ne hmn).symm.trans h
  subst hmn
  split at h
  · cases (AList.lookup_insert _).symm.trans h
  rename_i hget
  split at h
  · cases (AList.lookup_insert _).symm.trans h
  · rename_i hlen
    refine .inr ⟨?_, not_le.1 hlen⟩
    rw [BufferPool.get, Option.map_eq_none_iff] at hget
    exact hget

theorem present_evictOldest (h : p.Live) {m : Nat} (hm : m ∈ p.pool.dirty) :
    m ∈ p.evictOldest.pool.dirty ∨ (m + 1) * pageSize ≤ p.evictOldest.file.length := by
  unfold evictOldest
  split
  · exact .inl hm
  · rename_i old data hl
    have hcached : p.cached old = some data := AList.mem_lookup_iff.2 (List.mem_of_getLast? hl)
    split
    · by_cases hmo : m = old
      · right
        change _ ≤ (writePage p.file old data.bytes).length
        rw [length_writePage _ _ (h.cached_length old data hcached), hmo]
        exact Nat.le_max_right _ _
      · exact .inl (mem_discardDirty.2 ⟨hm, hmo⟩)
    · exact .inl hm

/-- A page that an eviction took the dirty flag of is on the data file. -/
theorem present_evictIfFull (h : p.WF) {m : Nat} (hm : m ∈ p.pool.dirty) :
    m ∈ p.evictIfFull.pool.dirty ∨ (m + 1) * pageSize ≤ p.evictIfFull.file.length := by
  have hloop : ∀ fuel (q : Pager), q.WF → q.touched = none → m ∈ q.pool.dirty ∨ (m + 1) * pageSize ≤ q.file.length →
      m ∈ (evictLoop fuel q).pool.dirty ∨ (m + 1) * pageSize ≤ (evictLoop fuel q).file.length := by
    intro fuel
    induction fuel with
    | zero => exact fun q _ _ hq => hq
    | succ fuel ih =>
      intro q hq ht hm
      unfold evictLoop
      split
      · exact hm
      · have he := evicts_evictOldest hq.live
        refine ih _ (he.wf hq ht) (he.touched_eq.trans ht) ?_
        rcases hm with hm | hm
        · exact present_evictOldest hq.live hm
        · exact .inr (hm.trans (length_le_evictOldest hq))
  unfold evictIfFull
  split
  · exact .inl hm
  · exact hloop _ p h (by simpa using ‹¬ p.touched.isSome = true›) (.inl hm)

theorem present_get (h : p.WF) (hg : p.get n = .ok (im, p')) {m : Nat} (hm : m ∈ p.pool.dirty) :
    m ∈ p'.pool.dirty ∨ (m + 1) * pageSize ≤ p'.file.length := by
  unfold get at hg
  split at hg
  · cases hg
  split at hg
  · rename_i hget
    cases hg
    rw [BufferPool.get, Option.map_eq_some_iff] at hget
    obtain ⟨data, -, heq⟩ := hget
    obtain ⟨-, rfl⟩ := Prod.mk.inj heq
    exact .inl hm
  · cases hg
    exact present_evictIfFull (wf_newImage h (readPage p.file n)) hm

/-- A flush of a clean pool shows the same pages. -/
theorem content_flush (h : p.WF) (hc : p.Clean) (hf : p.flush = .ok p') (n : Nat) : p'.content n = p.content n := by
  obtain ⟨hcached, -⟩ := flush_fields h hf
  cases hn : p'.cached n with
  | none => rw [content_of_not_cached hn, readPage_flush_of_clean h hc hf]
  | some im => rw [content_of_cached hn, content_of_cached ((hcached n).symm.trans hn)]

theorem nextId_flush (h : p.WF) (hf : p.flush = .ok p') : p'.nextId = p.nextId := by
  obtain ⟨file, hfl, -⟩ := flush_eq h
  rw [hfl] at hf
  cases hf
  rfl

namespace Backed

/-- A read leaves the pages alone that the log does not have. -/
theorem readPage_get (h : Backed C stored logged p) (hg : p.get n = .ok (im, p')) {m : Nat} (hm : m ∉ logged) :
    readPage p'.file m = readPage p.file m := by
  have hf := fetches_get h.wf hg
  by_cases ht : p.touched.isSome
  · rw [(hf.file_touched ht).1]
  · have ht : p.touched = none := by simpa using ht
    refine hf.read_clean m fun hd => ?_
    rcases h.dirty m hd with hl | hl
    · exact hm hl
    · rw [ht] at hl
      cases hl

theorem get (h : Backed C stored logged p) (hg : p.get n = .ok (im, p')) : Backed C stored logged p' := by
  have hf := fetches_get h.wf hg
  have hlen := length_le_get h.wf hg
  refine ⟨hf.wf h.wf, by rw [hf.touched_eq]; exact h.nodup, by rw [hf.touched_eq, hf.numPages_eq]; exact h.touched_lt,
    hf.clean h.clean, fun m => ?_, fun m hm => ?_, fun m hm => ?_, by rw [hf.shadow_eq]; exact h.shadow,
    by rw [hf.numPages_eq]; exact h.numPages, h.file.mono (fun m hm => h.readPage_get hg hm) fun m _ hle => hle.trans hlen⟩
  · by_cases ht : p.touched.isSome
    · rw [hf.base_eq ht, h.base]
    · have ht : p.touched = none := by simpa using ht
      rw [(hf.wf h.wf).base_eq_content (hf.touched_eq.trans ht),
        hf.content_eq fun im' hd => hd.2.2.2 (h.clean m im' hd.1 hd.2.2.1), ← h.wf.base_eq_content ht, h.base]
  · rw [hf.touched_eq]
    exact h.dirty m ((hf.dirty_iff m).1 hm).1
  · rcases h.covers m hm with hd | hle
    · exact present_get h.wf hg hd
    · exact .inr (hle.trans hlen)

/-! ### Writing -/

theorem writes (h : Backed C stored logged p) (ht : p.touched.isSome) (hw : Writes p p' n data)
    (hs : ∀ m, p'.shadow.lookup m = some none → p.shadow.lookup m = some none ∨ MissesPage p m) : Backed C stored logged p' := by
  obtain ⟨l, hl⟩ := Option.isSome_iff_exists.1 ht
  have htouched : p'.touched = some (l.insert n) := by rw [hw.touched_eq, hl, Option.map_some]
  have hnd := h.nodup
  have hlt := h.touched_lt
  rw [hl] at hnd hlt
  refine ⟨hw.wf, by rw [htouched]; exact hnd.insert, fun m hm => ?_, hw.clean h.clean, fun m => (hw.base_eq m).trans (h.base m),
    fun m hm => ?_, fun m hm => ?_, fun m hm hnone => ?_, fun m hm => ?_, by rw [hw.file_eq]; exact h.file⟩
  · rw [htouched] at hm
    rw [hw.numPages_eq]
    rcases List.mem_insert_iff.1 hm with rfl | hm
    · exact Nat.lt_of_lt_of_le (Nat.lt_succ_self m) (Nat.le_max_right ..)
    · exact (hlt m hm).trans_le (Nat.le_max_left ..)
  · rw [htouched]
    rcases (hw.mem_dirty m).1 hm with rfl | hm
    · exact .inr List.mem_insert_self
    · refine (h.dirty m hm).imp_right fun hm => ?_
      rw [hl] at hm
      exact List.mem_insert_of_mem hm
  · rw [hw.file_eq]
    exact (h.covers m hm).imp_left fun hd => (hw.mem_dirty m).2 (.inr hd)
  · rcases hs m hnone with hnone | ⟨hcached, hshort⟩
    · exact h.shadow m hm hnone
    · rcases h.covers m hm with hd | hle
      · have := h.wf.dirty_cached m hd
        rw [hcached] at this
        cases this
      · omega
  · rw [hw.numPages_eq]
    exact (h.numPages m hm).trans_le (Nat.le_max_left ..)

theorem write (h : Backed C stored logged p) (ht : p.touched.isSome) (hw : p.write n data = .ok p') : Backed C stored logged p' :=
  h.writes ht (writes_write h.wf ht hw) fun m hm => by
    obtain ⟨-, rfl⟩ := write_eq_ok hw
    exact shadow_putPage (p := (p.newImage (padTo pageSize data)).2) hm

theorem allocate (h : Backed C stored logged p) (ht : p.touched.isSome) : Backed C stored logged p.allocate.2 :=
  h.writes ht (writes_allocate h.wf ht) fun _ hm => shadow_putPage (p := { p with numPages := p.numPages + 1 }) hm

/-! ### Transactions -/

theorem begin (h : Backed C stored logged p) (ht : p.touched = none) :
    Backed C stored logged { p with touched := some [], shadow := ∅ } := by
  refine ⟨wf_begin h.wf, List.nodup_nil, by simp, h.clean, fun n => ?_, fun n hn => ?_, h.covers, by simp, h.numPages, h.file⟩
  · rw [base_begin, ← h.wf.base_eq_content ht, h.base]
  · have := h.dirty n hn
    rw [ht] at this
    exact this

/-- A commit of the pages `pages`, the touched ones. -/
theorem commit (h : Backed C stored logged p) (hC : ∀ n, C' n = if n ∈ p.touched.getD [] then p.content n else C n)
    (hstored : ∀ n, stored' n ↔ stored n ∨ n ∈ p.touched.getD []) {logged' : List Nat}
    (hlogged : ∀ n, n ∈ logged' ↔ n ∈ logged ∨ n ∈ p.touched.getD []) :
    Backed C' stored' logged' { p with touched := none, shadow := ∅ } := by
  have hnot : ∀ n, n ∉ p.touched.getD [] → p.content n = C n := by
    intro n hn
    have hsh : p.shadow.lookup n = none := AList.lookup_eq_none.2 fun hm => hn ((h.wf.shadow_touched n).1 hm)
    rw [← h.base n, Pager.base, hsh]
  refine ⟨wf_commit h.wf, List.nodup_nil, by simp, h.clean, fun n => ?_, fun n hn => .inl ((hlogged n).2 (h.dirty n hn)),
    fun n hn => ?_, by simp, fun n hn => ?_, ⟨fun n hn => ?_, fun n hn => ?_⟩⟩
  · rw [(wf_commit h.wf).base_eq_content rfl, hC]
    split
    · rfl
    · exact hnot n ‹_›
  · rcases (hlogged n).1 hn with hn | hn
    · exact h.covers n hn
    · exact .inl (h.wf.touched_dirty n hn)
  · rcases (hstored n).1 hn with hn | hn
    · exact h.numPages n hn
    · exact h.touched_lt n hn
  · obtain ⟨hn, ht⟩ := not_or.1 (fun hm => hn ((hlogged n).2 hm))
    rw [hC, if_neg ht]
    exact h.file.read n hn
  · rcases (hstored n).1 hn with hn | hn
    · exact (h.file.stored n hn).imp_left fun hm => (hlogged n).2 (.inl hm)
    · exact .inl ((hlogged n).2 (.inr hn))

theorem rollback (h : Backed C stored logged p) (hu : p.UndoOnFile) : Backed C stored logged p.rollbackTxn := by
  have hwf := wf_rollbackTxn h.wf
  refine ⟨hwf, List.nodup_nil, by simp [rollbackTxn], clean_rollbackTxn h.clean fun n im hs => (hu n im hs).1, fun n => ?_,
    fun n hn => ?_, fun n hn => ?_, fun n _ hs => ?_, h.numPages, h.file⟩
  · rw [hwf.base_eq_content rfl, content_rollbackTxn, h.base]
  · obtain ⟨hd, hs⟩ := (mem_dirty_rollbackTxn p n).1 hn
    refine (h.dirty n hd).imp_right fun ht => absurd ((h.wf.shadow_touched n).2 ht) hs
  · change _ ∨ (n + 1) * pageSize ≤ p.file.length
    rcases h.covers n hn with hd | hle
    · by_cases hs : n ∈ p.shadow
      · obtain ⟨c, hc⟩ := Option.isSome_iff_exists.1 (AList.lookup_isSome.2 hs)
        cases c with
        | none => exact absurd hc (h.shadow n hn)
        | some im => exact .inr (hu n im hc).2
      · exact .inl ((mem_dirty_rollbackTxn p n).2 ⟨hd, hs⟩)
    · exact .inr hle
  · cases hs

/-! ### Flushing and opening -/

/-- A flush outside a transaction leaves every page on the data file. -/
theorem flush (h : Backed C stored logged p) (ht : p.touched = none) (hf : p.flush = .ok p') : Backed C stored [] p' := by
  obtain ⟨hcached, hdirty, hnum, htouched, hshadow⟩ := flush_fields h.wf hf
  obtain ⟨hle, hpresent⟩ := length_le_flush h.wf hf
  have hread : ∀ n, readPage p'.file n = C n := fun n => by
    rw [readPage_flush_of_clean h.wf h.clean hf, ← h.wf.base_eq_content ht, h.base]
  have hwf := wf_flush h.wf ht hf
  refine ⟨hwf, by rw [htouched]; exact h.nodup, by rw [htouched, hnum]; exact h.touched_lt, fun n im hc _ => ?_, fun n => ?_,
    by rw [hdirty]; simp, by simp, by simp, by rw [hnum]; exact h.numPages, ⟨fun n _ => hread n, fun n hn => .inr ?_⟩⟩
  · rw [hread, ← h.base, h.wf.base_eq_content ht, content_of_cached ((hcached n).symm.trans hc)]
  · rw [hwf.base_eq_content (htouched.trans ht)]
    cases hc : p'.cached n with
    | none => rw [content_of_not_cached hc, hread]
    | some im => rw [content_of_cached hc, ← h.base, h.wf.base_eq_content ht, content_of_cached ((hcached n).symm.trans hc)]
  · rcases h.file.stored n hn with hl | hlen
    · rcases h.covers n hl with hd | hlen
      · exact hpresent n hd
      · exact hlen.trans hle
    · exact hlen.trans hle

end Backed

namespace OnFile

variable {file : Bytes}

theorem of_nil (h : OnFile C stored [] file) (logged : List Nat) : OnFile C stored logged file :=
  ⟨fun n _ => h.read n List.not_mem_nil, fun n hn => .inr ((h.stored n hn).resolve_left List.not_mem_nil)⟩

/-- Replaying the batches that have the logged pages. -/
theorem applyAll {pend : List Batch} (h : OnFile C stored ((Batch.images pend).map Prod.fst) file)
    (hlast : ∀ n ∈ (Batch.images pend).map Prod.fst, ∀ c, imageAfter (Batch.images pend) c n = C n) :
    OnFile C stored [] (Batch.applyAll file pend) where
  read n _ := by
    rw [readPage_applyAll]
    by_cases hn : n ∈ (Batch.images pend).map Prod.fst
    · exact hlast n hn _
    · rw [imageAfter_of_notMem hn, h.read n hn]
  stored n hn := by
    obtain ⟨hle, hpresent⟩ := Batch.length_le_applyAll file pend
    rcases h.stored n hn with hn | hn
    · exact .inr (hpresent n hn)
    · exact .inr (hn.trans hle)

theorem openFile (h : OnFile C stored [] file) {cacheSize : Nat} (hc : 0 < cacheSize) :
    Backed C stored [] (Pager.openFile file cacheSize hc) := by
  have hwf := wf_openFile file cacheSize hc
  refine ⟨hwf, List.nodup_nil, by simp [Pager.openFile], fun n im hn => ?_, fun n => ?_, by simp [Pager.openFile], by simp, by simp,
    fun n hn => ?_, h⟩
  · rw [cached_openFile] at hn
    cases hn
  · rw [hwf.base_eq_content rfl, content_of_not_cached (cached_openFile ..)]
    exact h.read n List.not_mem_nil
  · have hlen := (h.stored n hn).resolve_left List.not_mem_nil
    change n < max 1 (file.length / pageSize)
    have := (Nat.le_div_iff_mul_le (by decide : 0 < pageSize)).2 hlen
    omega

end OnFile

end Pager

end LeafDb
