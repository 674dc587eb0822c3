import LeafDb.Base.Trace
import LeafDb.PagerTxn

/-!
# The pager as a map of pages

`PageMap` is what a pager is for: page numbers to images, without a pool and without a file. A pager of any
capacity implements it (`Implements.apply`), so its capacity cannot be seen from outside. Within a
transaction nothing leaves the pool, and what `collect_commit` hands out are the last images written.
-/

namespace LeafDb

/-- The operations of a pager other than `rollback_txn`. -/
inductive PageOp
  | get (n : Nat)
  | allocate
  | write (n : Nat) (data : Bytes)
  | beginTxn
  | collectCommit
  | flush

/-- What an operation returns. -/
inductive PageResult
  | nothing
  | page (bytes : Bytes)
  | number (n : Nat)
  | commit (images : List (Nat × Bytes)) (numPages : Nat)

namespace PageOp

/-- The operations of the body of a transaction. -/
def InTxn : PageOp → Prop
  | get _ => True
  | allocate => True
  | write _ _ => True
  | _ => False

/-- The image that an operation wrote to page `n`. -/
def imageOf (n : Nat) : PageOp × Except PyError PageResult → Option Bytes
  | (write k data, .ok _) => if k = n then some (padTo pageSize data) else none
  | (allocate, .ok (.number k)) => if k = n then some emptyPage.bytes else none
  | _ => none

/-- The last image written to page `n`. -/
def lastImage (n : Nat) (trace : List (PageOp × Except PyError PageResult)) : Option Bytes :=
  trace.foldl (fun last e => (imageOf n e).or last) none

/-- Page `n` was in the file, or an operation wrote it or a page behind it; every file has page 0. -/
def InRange (file : Bytes) (trace : List (PageOp × Except PyError PageResult)) (n : Nat) : Prop :=
  n = 0 ∨ n < file.length / pageSize ∨ ∃ k, n ≤ k ∧ (lastImage k trace).isSome

theorem lastImage_concat (n : Nat) (trace : List (PageOp × Except PyError PageResult))
    (e : PageOp × Except PyError PageResult) :
    lastImage n (trace ++ [e]) = (imageOf n e).or (lastImage n trace) := by
  rw [lastImage, List.foldl_append]
  rfl

end PageOp

open PageOp

/-! ### Operations with their results -/

namespace Pager

/-- One operation: what it returns or raises, and the pager after it. One that raises has changed nothing. -/
def apply (p : Pager) : PageOp → Except PyError PageResult × Pager
  | .get n =>
    match p.get n with
    | .ok (im, p') => (.ok (.page im.bytes), p')
    | .error e => (.error e, p)
  | .allocate => (.ok (.number p.allocate.1), p.allocate.2)
  | .write n data =>
    match p.write n data with
    | .ok p' => (.ok .nothing, p')
    | .error e => (.error e, p)
  | .beginTxn =>
    match p.beginTxn with
    | .ok p' => (.ok .nothing, p')
    | .error e => (.error e, p)
  | .collectCommit =>
    match p.collectCommit with
    | .ok (images, numPages, p') => (.ok (.commit images numPages), p')
    | .error e => (.error e, p)
  | .flush =>
    match p.flush with
    | .ok p' => (.ok .nothing, p')
    | .error e => (.error e, p)

end Pager

/-- The pages a pager shows, their number, and the pages written in the open transaction. -/
structure PageMap where
  numPages : Nat
  page : Nat → Bytes
  touched : Option (List Nat)

namespace PageMap

/-- What a file holds; zero beyond its end. -/
def ofFile (file : Bytes) : PageMap := ⟨max 1 (file.length / pageSize), readPage file, none⟩

def store (m : PageMap) (n : Nat) (bytes : Bytes) : PageMap :=
  ⟨max m.numPages (n + 1), Function.update m.page n bytes, m.touched.map (·.insert n)⟩

@[simp] theorem store_page_self (m : PageMap) (n : Nat) (bytes : Bytes) : (m.store n bytes).page n = bytes :=
  Function.update_self ..

@[simp] theorem store_page_other (m : PageMap) {n k : Nat} (bytes : Bytes) (h : k ≠ n) : (m.store n bytes).page k = m.page k :=
  Function.update_of_ne h ..

def apply (m : PageMap) : PageOp → Except PyError PageResult × PageMap
  | .get n => if m.numPages ≤ n ∧ n ≠ 0 then (.error .indexError, m) else (.ok (.page (m.page n)), m)
  | .allocate => (.ok (.number m.numPages), m.store m.numPages emptyPage.bytes)
  | .write n data =>
    if pageSize < data.length then (.error .valueError, m) else (.ok .nothing, m.store n (padTo pageSize data))
  | .beginTxn => if m.touched.isSome then (.error .runtimeError, m) else (.ok .nothing, { m with touched := some [] })
  | .collectCommit =>
    (.ok (.commit (((m.touched.getD []).insertionSort (· ≤ ·)).map fun n => (n, m.page n)) m.numPages),
      { m with touched := none })
  | .flush => (.ok .nothing, m)

/-- What an operation does to the pages is what it writes. -/
theorem page_apply (m : PageMap) (op : PageOp) (n : Nat) :
    (m.apply op).2.page n = (imageOf n (op, (m.apply op).1)).getD (m.page n) := by
  cases op with
  | get k =>
    rw [apply]
    split <;> rfl
  | allocate =>
    rw [apply, imageOf]
    split
    · rename_i h
      rw [← h, store_page_self]
      rfl
    · rename_i h
      rw [store_page_other _ _ (Ne.symm h)]
      rfl
  | write k data =>
    rw [apply]
    split
    · rfl
    · rw [imageOf]
      split
      · rename_i h
        rw [← h, store_page_self]
        rfl
      · rename_i h
        rw [store_page_other _ _ (Ne.symm h)]
        rfl
  | beginTxn =>
    rw [apply]
    split <;> rfl
  | collectCommit => rfl
  | flush => rfl

/-- A page of a map holds the last image written to it. -/
theorem page_after (m : PageMap) (ops : List PageOp) (n : Nat) :
    (Trace.after apply m ops).page n = (lastImage n (Trace.trace apply m ops)).getD (m.page n) := by
  induction ops using List.reverseRecOn with
  | nil => rfl
  | append_singleton ops op ih =>
    rw [Trace.after_concat, Trace.trace_concat, lastImage_concat, page_apply, ih]
    cases imageOf n (op, ((Trace.after apply m ops).apply op).1) <;> rfl

theorem lt_numPages_store (m : PageMap) (n k : Nat) (bytes : Bytes) : k < (m.store n bytes).numPages ↔ k < m.numPages ∨ k ≤ n := by
  change k < max m.numPages (n + 1) ↔ _
  omega

/-- What an operation does to the number of pages is what it writes. -/
theorem lt_numPages_apply (m : PageMap) (op : PageOp) (n : Nat) :
    n < (m.apply op).2.numPages ↔ n < m.numPages ∨ ∃ k, n ≤ k ∧ (imageOf k (op, (m.apply op).1)).isSome := by
  have hnone : ∀ {e}, (∀ k, imageOf k e = none) → ¬∃ k, n ≤ k ∧ (imageOf k e).isSome := by
    rintro e he ⟨k, -, hk⟩
    rw [he] at hk
    cases hk
  cases op with
  | allocate =>
    rw [apply, lt_numPages_store]
    refine or_congr_right ⟨fun h => ⟨_, h, by simp [imageOf]⟩, ?_⟩
    rintro ⟨k, hk, him⟩
    rw [imageOf] at him
    split at him
    · rename_i he
      exact hk.trans_eq he.symm
    · cases him
  | write k data =>
    rw [apply]
    split
    · exact (or_iff_left (hnone fun _ => rfl)).symm
    · rw [lt_numPages_store]
      refine or_congr_right ⟨fun h => ⟨_, h, by simp [imageOf]⟩, ?_⟩
      rintro ⟨j, hj, him⟩
      rw [imageOf] at him
      split at him
      · rename_i he
        exact hj.trans_eq he.symm
      · cases him
  | get k =>
    rw [apply]
    split <;> exact (or_iff_left (hnone fun _ => rfl)).symm
  | beginTxn =>
    rw [apply]
    split <;> exact (or_iff_left (hnone fun _ => rfl)).symm
  | collectCommit => exact (or_iff_left (hnone fun _ => rfl)).symm
  | flush => exact (or_iff_left (hnone fun _ => rfl)).symm

/-- The pages of a map are those it began with and those up to the last one written. -/
theorem lt_numPages_after (m : PageMap) (ops : List PageOp) (n : Nat) :
    n < (Trace.after apply m ops).numPages ↔ n < m.numPages ∨ ∃ k, n ≤ k ∧ (lastImage k (Trace.trace apply m ops)).isSome := by
  induction ops using List.reverseRecOn with
  | nil => simp [lastImage]
  | append_singleton ops op ih =>
    simp only [Trace.after_concat, Trace.trace_concat, lastImage_concat, lt_numPages_apply, ih, Option.isSome_or, Bool.or_eq_true,
      and_or_left, exists_or, or_assoc]
    rw [or_comm (a := ∃ k, _)]

end PageMap

namespace Pager

variable {p p' : Pager}

/-! ### One operation -/

theorem Live.allocate (h : p.Live) :
    Stores { p with numPages := p.numPages + 1 } p.allocate.2 p.numPages emptyPage ∧ p.allocate.2.Live := by
  have h' : Live { p with numPages := p.numPages + 1 } :=
    ⟨h.cached_length, h.cached_id, h.shadow_length, h.shadow_id, h.dirty_cached, h.shadow_touched, h.touched_cached,
      h.nextId_pos, Nat.succ_pos _⟩
  have hs := stores_putPage_live h' p.numPages emptyPage
  exact ⟨hs, hs.live h' (by simp [emptyPage]) h.nextId_pos⟩

theorem Live.write (h : p.Live) {n : Nat} {data : Bytes} (hw : p.write n data = .ok p') :
    Stores (p.newImage (padTo pageSize data)).2 p' n ⟨p.nextId, padTo pageSize data⟩ ∧ p'.Live := by
  obtain ⟨hlen, rfl⟩ := write_eq_ok hw
  have hs := stores_putPage_live (live_newImage h (padTo pageSize data)) n ⟨p.nextId, padTo pageSize data⟩
  exact ⟨hs, hs.live (live_newImage h _) (length_padTo hlen) (Nat.lt_succ_self _)⟩

/-- A write changes no other page that is on the file or in the pool as it should be. -/
theorem Stores.content_other {n : Nat} {im : Image} (hs : Stores p p' n im) (hc : p.Clean) {m : Nat} (hm : m ≠ n) :
    p'.content m = p.content m := by
  cases h' : p'.cached m with
  | some im' => rw [content_of_cached h', content_of_cached (hs.kept m im' hm h')]
  | none =>
    rw [content_of_not_cached h']
    cases h : p.cached m with
    | none => rw [content_of_not_cached h, hs.read_kept m hm (.inl h)]
    | some im' =>
      rw [content_of_cached h]
      by_cases hd : m ∈ p.pool.dirty
      · exact hs.read_dirty m im' hm h h' hd
      · rw [hs.read_clean m hd, hc m im' h hd]

/-- The pager after a flush with the file it wrote. -/
def flushed (p : Pager) (file : Bytes) : Pager := { p with file := file, pool := { p.pool with dirty := [] } }

theorem readPage_flushed {file : Bytes} (hc : p.Clean)
    (hr : ∀ n, readPage file n = if n ∈ p.pool.dirty then p.content n else readPage p.file n) (n : Nat) :
    readPage file n = p.content n := by
  rw [hr]
  split
  · rfl
  · rename_i hd
    cases h : p.cached n with
    | none => rw [content_of_not_cached h]
    | some im => rw [content_of_cached h, hc n im h hd]

/-- A flush changes no page. -/
theorem content_flushed {file : Bytes} {n : Nat} (hr : readPage file n = p.content n) :
    (p.flushed file).content n = p.content n := by
  cases h : p.cached n with
  | none => exact (content_of_not_cached (p := p.flushed file) h).trans hr
  | some im => exact (content_of_cached (p := p.flushed file) h).trans (content_of_cached h).symm

/-! ### A pager implements a map of pages -/

structure Implements (p : Pager) (m : PageMap) : Prop where
  live : p.Live
  clean : p.Clean
  numPages_eq : p.numPages = m.numPages
  content_eq : p.content = m.page
  touched_eq : p.touched = m.touched

theorem implements_openFile (file : Bytes) (c : Nat) (hc : 0 < c) : (openFile file c hc).Implements (PageMap.ofFile file) where
  live := (wf_openFile file c hc).live
  clean n im h := by rw [cached_openFile] at h; cases h
  numPages_eq := rfl
  content_eq := funext fun n => content_of_not_cached (cached_openFile file c hc n)
  touched_eq := rfl

/-- The pager and the map after page `n` was replaced. -/
theorem Implements.store {m : PageMap} {n : Nat} {im : Image} {q : Pager} (h : p.Implements m) (hs : Stores q p' n im)
    (hl : p'.Live) (hclean : q.Clean) (hcontent : q.content = p.content) (hnum : max q.numPages (n + 1) = max m.numPages (n + 1))
    (ht : q.touched = p.touched) : p'.Implements (m.store n im.bytes) where
  live := hl
  clean := hs.clean hclean
  numPages_eq := hs.numPages_eq.trans hnum
  content_eq := by
    funext k
    by_cases hk : k = n
    · rw [hk, hs.content_self, PageMap.store_page_self]
    · rw [hs.content_other hclean hk, hcontent, h.content_eq, PageMap.store_page_other _ _ hk]
  touched_eq := by rw [hs.touched_eq, ht, h.touched_eq, PageMap.store]

/-- Every operation returns or raises what it does on the map. -/
theorem Implements.apply {m : PageMap} (h : p.Implements m) (op : PageOp) :
    (p.apply op).1 = (m.apply op).1 ∧ (p.apply op).2.Implements (m.apply op).2 := by
  cases op with
  | get n =>
    by_cases hn : m.numPages ≤ n ∧ n ≠ 0
    · have hg : p.get n = .error .indexError := by rw [Pager.get, h.numPages_eq, if_pos hn]
      rw [Pager.apply, hg, PageMap.apply, if_pos hn]
      exact ⟨rfl, h⟩
    · obtain ⟨im, p', hg⟩ : ∃ im p', p.get n = .ok (im, p') := by
        rw [Pager.get, h.numPages_eq, if_neg hn]
        split <;> exact ⟨_, _, rfl⟩
      have hf := fetches_get_live h.live hg
      have hcontent (k : Nat) : p'.content k = p.content k :=
        hf.content_eq fun im' hd => hd.2.2.2 (h.clean k im' hd.1 hd.2.2.1)
      rw [Pager.apply, hg, PageMap.apply, if_neg hn]
      refine ⟨by simp only [hf.bytes_eq, h.content_eq], hf.live h.live, hf.clean h.clean, hf.numPages_eq.trans h.numPages_eq, ?_,
        hf.touched_eq.trans h.touched_eq⟩
      exact (funext hcontent).trans h.content_eq
  | allocate =>
    obtain ⟨hs, hl⟩ := h.live.allocate
    refine ⟨congrArg (fun n => Except.ok (PageResult.number n)) h.numPages_eq, ?_⟩
    rw [PageMap.apply, ← h.numPages_eq]
    refine h.store hs hl h.clean rfl ?_ rfl
    show max (p.numPages + 1) _ = _
    rw [h.numPages_eq]
    omega
  | write n data =>
    by_cases hlen : pageSize < data.length
    · have hw : p.write n data = .error .valueError := by rw [Pager.write, if_pos hlen]
      rw [Pager.apply, hw, PageMap.apply, if_pos hlen]
      exact ⟨rfl, h⟩
    · obtain ⟨p', hw⟩ : ∃ p', p.write n data = .ok p' := by
        rw [Pager.write, if_neg hlen]
        exact ⟨_, rfl⟩
      obtain ⟨hs, hl⟩ := h.live.write hw
      rw [Pager.apply, hw, PageMap.apply, if_neg hlen]
      refine ⟨rfl, h.store hs hl h.clean rfl ?_ rfl⟩
      show max p.numPages _ = _
      rw [h.numPages_eq]
  | beginTxn =>
    by_cases ht : m.touched.isSome
    · have hb : p.beginTxn = .error .runtimeError := by rw [Pager.beginTxn, h.touched_eq, if_pos ht]
      rw [Pager.apply, hb, PageMap.apply, if_pos ht]
      exact ⟨rfl, h⟩
    · have hb : p.beginTxn = .ok { p with touched := some [], shadow := ∅ } := by
        rw [Pager.beginTxn, h.touched_eq, if_neg ht]
      rw [Pager.apply, hb, PageMap.apply, if_neg ht]
      exact ⟨rfl, h.live.begin, h.clean, h.numPages_eq, h.content_eq, rfl⟩
  | collectCommit =>
    rw [Pager.apply, h.live.collectCommit, PageMap.apply]
    refine ⟨?_, h.live.commit, h.clean, h.numPages_eq, h.content_eq, rfl⟩
    rw [touchedPages, h.touched_eq, h.numPages_eq, h.content_eq]
  | flush =>
    obtain ⟨file, hfl, hr⟩ := h.live.flush
    have hread := readPage_flushed h.clean hr
    rw [Pager.apply, hfl, PageMap.apply]
    refine ⟨rfl, ⟨h.live.cached_length, h.live.cached_id, h.live.shadow_length, h.live.shadow_id, fun n hn => by simp at hn,
      h.live.shadow_touched, h.live.touched_cached, h.live.nextId_pos, h.live.numPages_pos⟩, fun n im hc _ => ?_,
      h.numPages_eq, ?_, h.touched_eq⟩
    · exact (hread n).trans (content_of_cached hc)
    · exact (funext fun n => content_flushed (hread n)).trans h.content_eq

end Pager

/-- The capacity of the pool cannot be seen: two pagers on equal files give the same results, those of the map of
the file's pages. A `get` returns the last image written, or what the file had, and raises on a page that is behind
all of them. -/
theorem capacity_unobservable (file : Bytes) {c c' : Nat} (hc : 0 < c) (hc' : 0 < c') (ops : List PageOp) :
    Trace.trace Pager.apply (Pager.openFile file c hc) ops = Trace.trace Pager.apply (Pager.openFile file c' hc') ops ∧
      Trace.trace Pager.apply (Pager.openFile file c hc) ops = Trace.trace PageMap.apply (PageMap.ofFile file) ops ∧
      ∀ pre n r post, Trace.trace Pager.apply (Pager.openFile file c hc) ops = pre ++ (.get n, r) :: post →
        (InRange file pre n → r = .ok (.page ((lastImage n pre).getD (readPage file n)))) ∧
          (¬InRange file pre n → r = .error .indexError) := by
  have hsim {c : Nat} (hc : 0 < c) (ops : List PageOp) :=
    Trace.sim (R := Pager.Implements) (fun _ _ op h => h.apply op) (Pager.implements_openFile file c hc) ops
  refine ⟨(hsim hc ops).1.trans (hsim hc' ops).1.symm, (hsim hc ops).1, fun pre n r post h => ?_⟩
  obtain ⟨ops₁, rfl, rfl⟩ := Trace.split h
  obtain ⟨htrace, himp⟩ := hsim hc ops₁
  have hrange : InRange file (Trace.trace PageMap.apply (PageMap.ofFile file) ops₁) n ↔
      n < (Trace.after PageMap.apply (PageMap.ofFile file) ops₁).numPages := by
    rw [PageMap.lt_numPages_after, InRange, ← or_assoc]
    change _ ↔ n < max 1 (file.length / pageSize) ∨ _
    refine or_congr_left ?_
    omega
  rw [(himp.apply (.get n)).1, htrace, hrange, PageMap.apply, PageMap.page_after]
  constructor
  · intro hlt
    rw [if_neg fun h => absurd hlt (not_lt.2 h.1)]
    rfl
  · intro hle
    have hzero : n ≠ 0 := by
      rintro rfl
      exact hle (hrange.1 (.inl rfl))
    rw [if_pos ⟨not_lt.1 hle, hzero⟩]

/-- A pool of one page and one of three, and a page that is written, pushed out of the small pool and read again. -/
theorem capacity_unobservable_evicted :
    let ops : List PageOp := [.allocate, .write 1 [7], .get 0, .get 1, .get 2]
    Trace.trace Pager.apply (Pager.openFile [] 1 Nat.one_pos) ops = Trace.trace Pager.apply (Pager.openFile [] 3 (by omega)) ops ∧
      Trace.trace Pager.apply (Pager.openFile [] 1 Nat.one_pos) ops =
        [(.allocate, .ok (.number 1)), (.write 1 [7], .ok .nothing), (.get 0, .ok (.page (readPage [] 0))),
          (.get 1, .ok (.page (padTo pageSize [7]))), (.get 2, .error .indexError)] := by
  intro ops
  have hthree : 0 < 3 := by omega
  obtain ⟨heq, hmap, -⟩ := capacity_unobservable [] Nat.one_pos hthree ops
  refine ⟨heq, hmap.trans ?_⟩
  have hpos : pageSize ≠ 0 := by decide
  simp [ops, PageMap.apply, PageMap.ofFile, PageMap.store, hpos]

/-! ### What a commit hands out -/

namespace Pager

/-- A pager some run reaches. -/
inductive Reached : Pager → Prop
  | opened (file : Bytes) (c : Nat) (hc : 0 < c) : Reached (openFile file c hc)
  | apply {p : Pager} (h : Reached p) (op : PageOp) : Reached (p.apply op).2
  | rolledBack {p : Pager} (h : Reached p) : Reached p.rollbackTxn

theorem Live.apply {p : Pager} (h : p.Live) (op : PageOp) : (p.apply op).2.Live := by
  cases op with
  | get n =>
    rw [Pager.apply]
    split
    · rename_i hg
      exact (fetches_get_live h hg).live h
    · exact h
  | allocate => exact h.allocate.2
  | write n data =>
    rw [Pager.apply]
    split
    · rename_i hw
      exact (h.write hw).2
    · exact h
  | beginTxn =>
    rw [Pager.apply]
    split
    · rename_i hb
      obtain ⟨-, rfl⟩ := beginTxn_eq_ok hb
      exact h.begin
    · exact h
  | collectCommit =>
    rw [Pager.apply, h.collectCommit]
    exact h.commit
  | flush =>
    obtain ⟨file, hfl, -⟩ := h.flush
    rw [Pager.apply, hfl]
    exact ⟨h.cached_length, h.cached_id, h.shadow_length, h.shadow_id, fun n hn => by simp at hn, h.shadow_touched,
      h.touched_cached, h.nextId_pos, h.numPages_pos⟩

theorem Reached.live {p : Pager} (h : Reached p) : p.Live := by
  induction h with
  | opened file c hc => exact (wf_openFile file c hc).live
  | apply _ op ih => exact ih.apply op
  | rolledBack _ ih => exact ih.rollbackTxn

/-- The open transaction so far: `c` are the pages when it began. -/
structure InBody (c : Nat → Bytes) (p : Pager) (t : List (PageOp × Except PyError PageResult)) (pages : List Nat) : Prop where
  live : p.Live
  touched_eq : p.touched = some pages
  nodup : pages.Nodup
  mem_iff : ∀ n, n ∈ pages ↔ (lastImage n t).isSome
  lt_numPages : ∀ n ∈ pages, n < p.numPages
  content_eq : ∀ n, p.content n = (lastImage n t).getD (c n)

section Body

variable {c : Nat → Bytes} {p p' q : Pager} {t : List (PageOp × Except PyError PageResult)} {pages : List Nat}

/-- An operation that writes nothing. -/
theorem InBody.same (h : InBody c p t pages) {e : PageOp × Except PyError PageResult} (he : ∀ n, imageOf n e = none)
    (hl : p'.Live) (ht : p'.touched = p.touched) (hn : p'.numPages = p.numPages) (hc : ∀ n, p'.content n = p.content n) :
    InBody c p' (t ++ [e]) pages where
  live := hl
  touched_eq := ht.trans h.touched_eq
  nodup := h.nodup
  mem_iff n := by rw [lastImage_concat, he, h.mem_iff]; rfl
  lt_numPages n hm := hn ▸ h.lt_numPages n hm
  content_eq n := by rw [lastImage_concat, he, hc, h.content_eq]; rfl

/-- An operation that writes one page. -/
theorem InBody.stores (h : InBody c p t pages) {e : PageOp × Except PyError PageResult} {n : Nat} {im : Image}
    (he : ∀ k, imageOf k e = if n = k then some im.bytes else none) (hs : Stores q p' n im) (hl : p'.Live)
    (ht : q.touched = p.touched) (hn : p.numPages ≤ q.numPages) (hc : ∀ k, q.content k = p.content k) :
    InBody c p' (t ++ [e]) (pages.insert n) where
  live := hl
  touched_eq := by rw [hs.touched_eq, ht, h.touched_eq]; rfl
  nodup := h.nodup.insert
  mem_iff k := by
    rw [lastImage_concat, he, List.mem_insert_iff, h.mem_iff]
    by_cases hk : n = k
    · simp [hk]
    · simp [hk, Ne.symm hk]
  lt_numPages k hk := by
    rw [hs.numPages_eq]
    rcases List.mem_insert_iff.1 hk with rfl | hk
    · omega
    · have := h.lt_numPages k hk
      omega
  content_eq k := by
    rw [lastImage_concat, he]
    by_cases hk : n = k
    · rw [if_pos hk, ← hk, hs.content_self]
      rfl
    · have htouched : q.touched.isSome := by rw [ht, h.touched_eq]; rfl
      rw [if_neg hk, hs.content_other_of_touched htouched (Ne.symm hk), hc, h.content_eq]
      rfl

/-- Each operation of the body keeps `InBody`. -/
theorem InBody.apply (h : InBody c p t pages) {op : PageOp} (hop : op.InTxn) :
    ∃ pages', InBody c (p.apply op).2 (t ++ [(op, (p.apply op).1)]) pages' := by
  have htouched : p.touched.isSome := by rw [h.touched_eq]; rfl
  cases op with
  | get n =>
    rw [Pager.apply]
    split
    · rename_i hg
      have hf := fetches_get_live h.live hg
      exact ⟨pages, h.same (fun _ => rfl) (hf.live h.live) hf.touched_eq hf.numPages_eq (hf.content_eq_of_touched htouched)⟩
    · exact ⟨pages, h.same (fun _ => rfl) h.live rfl rfl fun _ => rfl⟩
  | allocate =>
    obtain ⟨hs, hl⟩ := h.live.allocate
    exact ⟨_, h.stores (fun _ => rfl) hs hl rfl (Nat.le_succ _) fun _ => rfl⟩
  | write n data =>
    rw [Pager.apply]
    split
    · rename_i hw
      obtain ⟨hs, hl⟩ := h.live.write hw
      exact ⟨_, h.stores (fun _ => rfl) hs hl rfl le_rfl fun _ => rfl⟩
    · exact ⟨pages, h.same (fun _ => rfl) h.live rfl rfl fun _ => rfl⟩
  | beginTxn => exact hop.elim
  | collectCommit => exact hop.elim
  | flush => exact hop.elim

theorem inBody_after {p₀ : Pager} (hl : p₀.Live) (ht : p₀.touched = some []) {ops : List PageOp}
    (hops : ∀ op ∈ ops, op.InTxn) :
    ∃ pages, InBody p₀.content (Trace.after Pager.apply p₀ ops) (Trace.trace Pager.apply p₀ ops) pages := by
  induction ops using List.reverseRecOn with
  | nil => exact ⟨[], hl, ht, List.nodup_nil, fun n => by simp [lastImage], fun n hn => by simp at hn, fun n => rfl⟩
  | append_singleton ops op ih =>
    obtain ⟨pages, h⟩ := ih fun op hop => hops op (List.mem_append_left _ hop)
    rw [Trace.after_concat, Trace.trace_concat]
    exact h.apply (hops op (by simp))

end Body

end Pager

theorem lookup_map_pair {α : Type} (f : Nat → α) (l : List Nat) (n : Nat) :
    (l.map fun k => (k, f k)).lookup n = if n ∈ l then some (f n) else none := by
  induction l with
  | nil => rfl
  | cons k l ih =>
    rw [List.map_cons, List.lookup_cons]
    by_cases h : n = k
    · simp [h]
    · rw [beq_false_of_ne h, ih]
      simp [h]

/-- `collect_commit` at the end of a transaction: it raises nothing and hands out exactly the pages written in
the transaction, each with its last image; put over the pages at `begin_txn`, they are the pages seen through `get`. -/
theorem commit_logs_writes {p p₀ : Pager} (hp : p.Reached) (hbegin : p.beginTxn = .ok p₀) {ops : List PageOp}
    (hops : ∀ op ∈ ops, op.InTxn) :
    let t := Trace.trace Pager.apply p₀ ops
    let p₁ := Trace.after Pager.apply p₀ ops
    ∃ images p₂, p₁.collectCommit = .ok (images, p₁.numPages, p₂) ∧ (images.map Prod.fst).Pairwise (· < ·) ∧
      (∀ n, n ∈ images.map Prod.fst ↔ (lastImage n t).isSome) ∧
      (∀ e ∈ images, lastImage e.1 t = some e.2 ∧ e.1 < p₁.numPages) ∧
      (∀ n im q, p₁.get n = .ok (im, q) ∨ p₂.get n = .ok (im, q) → im.bytes = (images.lookup n).getD (p.content n)) ∧
      ∀ n im q, p.get n = .ok (im, q) → im.bytes = p.content n := by
  intro t p₁
  obtain ⟨-, rfl⟩ := Pager.beginTxn_eq_ok hbegin
  obtain ⟨pages, h⟩ := Pager.inBody_after (hp.live.begin) rfl hops
  have hpages : p₁.touchedPages = pages.insertionSort (· ≤ ·) := congrArg (fun l => (l.getD []).insertionSort (· ≤ ·)) h.touched_eq
  have hmem (n : Nat) : n ∈ p₁.touchedPages ↔ (lastImage n t).isSome := by rw [hpages, List.mem_insertionSort, h.mem_iff]
  have hmap : ((p₁.touchedPages.map fun n => (n, p₁.content n)).map Prod.fst) = p₁.touchedPages := by
    rw [List.map_map]
    exact List.map_id _
  refine ⟨_, _, h.live.collectCommit, ?_, ?_, ?_, ?_, fun n im q hg => (Pager.fetches_get_live hp.live hg).bytes_eq⟩
  · rw [hmap, hpages]
    have hnodup : (pages.insertionSort (· ≤ ·)).Nodup := (List.perm_insertionSort _ pages).nodup_iff.2 h.nodup
    exact ((List.pairwise_insertionSort (· ≤ ·) pages).and hnodup).imp fun hk => lt_of_le_of_ne hk.1 hk.2
  · rw [hmap]
    exact hmem
  · intro e he
    obtain ⟨n, hn, rfl⟩ := List.mem_map.1 he
    obtain ⟨im, him⟩ := Option.isSome_iff_exists.1 ((hmem n).1 hn)
    refine ⟨?_, h.lt_numPages n ((h.mem_iff n).2 ((hmem n).1 hn))⟩
    rw [h.content_eq, him]
    rfl
  · intro n im q hg
    have hbytes : im.bytes = p₁.content n := by
      rcases hg with hg | hg
      · exact (Pager.fetches_get_live h.live hg).bytes_eq
      · exact (Pager.fetches_get_live h.live.commit hg).bytes_eq
    rw [hbytes, lookup_map_pair]
    split
    · rfl
    · rename_i hn
      rw [hmem, Option.not_isSome_iff_eq_none] at hn
      rw [h.content_eq, hn]
      rfl

/-- A write, a new page and a second write in a transaction on an empty file, with a pool of one page. -/
theorem commit_logs_writes_three :
    let p₀ : Pager := { Pager.openFile [] 1 Nat.one_pos with touched := some [], shadow := ∅ }
    let ops : List PageOp := [.write 0 [7], .allocate, .get 0, .write 0 [8]]
    ∃ images p₂, (Trace.after Pager.apply p₀ ops).collectCommit = .ok (images, (Trace.after Pager.apply p₀ ops).numPages, p₂) ∧
      ∀ e, e ∈ images ↔ e = (0, padTo pageSize [8]) ∨ e = (1, emptyPage.bytes) := by
  intro p₀ ops
  obtain ⟨images, p₂, h, -, hmem, himages, -⟩ :=
    @commit_logs_writes _ p₀ (.opened [] 1 Nat.one_pos) rfl ops (by simp [ops, InTxn])
  refine ⟨images, p₂, h, fun e => ?_⟩
  have himp : p₀.Implements { PageMap.ofFile [] with touched := some [] } :=
    ((Pager.implements_openFile [] 1 Nat.one_pos).apply .beginTxn).2
  have htrace := (Trace.sim (R := Pager.Implements) (fun _ _ op h => h.apply op) himp ops).1
  have hlast : ∀ n, lastImage n (Trace.trace Pager.apply p₀ ops) =
      if n = 0 then some (padTo pageSize [8]) else if n = 1 then some emptyPage.bytes else none := by
    intro n
    have hpos : pageSize ≠ 0 := by decide
    rw [htrace]
    by_cases h0 : n = 0
    · simp [ops, PageMap.apply, PageMap.ofFile, PageMap.store, hpos, lastImage, imageOf, h0]
    by_cases h1 : n = 1
    · simp [ops, PageMap.apply, PageMap.ofFile, PageMap.store, hpos, lastImage, imageOf, h1]
    · simp [ops, PageMap.apply, PageMap.ofFile, PageMap.store, hpos, lastImage, imageOf, Ne.symm h0, Ne.symm h1, h0, h1]
  constructor
  · intro he
    have hv := (himages e he).1
    rw [hlast] at hv
    split at hv
    · rename_i h0
      exact .inl (Prod.ext h0 (Option.some.inj hv).symm)
    · split at hv
      · rename_i h1
        exact .inr (Prod.ext h1 (Option.some.inj hv).symm)
      · cases hv
  · have hkey : ∀ n b, lastImage n (Trace.trace Pager.apply p₀ ops) = some b → (n, b) ∈ images := by
      intro n b hb
      obtain ⟨⟨k, b'⟩, he, rfl⟩ := List.mem_map.1 ((hmem n).2 (by rw [hb]; rfl))
      obtain rfl := Option.some.inj (hb.symm.trans (himages _ he).1)
      exact he
    rintro (rfl | rfl)
    · exact hkey 0 _ (by rw [hlast, if_pos rfl])
    · exact hkey 1 _ (by rw [hlast, if_neg (by decide), if_pos rfl])

end LeafDb
