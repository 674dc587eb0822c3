import LeafDb.PagerTxn
import LeafDb.Base.Run

/-!
# Uncommitted bytes never reach the data file (`pager.py`)

A run of one pager carries the images written so far: `durable` are those written outside a transaction or
by one that was committed, `pending` those of the open one. A dirty page has a durable image or a page of
the open transaction, and while one is open nothing is evicted (`Durable`); so what an eviction or a flush
writes is durable at every moment, also between two page writes of one operation (`filesDuring`).
-/

namespace LeafDb

/-- What a user of one pager does. -/
inductive PagerOp
  | get (n : Nat)
  | write (n : Nat) (data : Bytes)
  | allocate
  | beginTxn
  | rollbackTxn
  | collectCommit
  | flush

/-- A pager with the images written to it: page numbers and padded bytes. -/
structure Traced where
  pager : Pager
  durable : List (Nat × Bytes)
  pending : List (Nat × Bytes)

namespace Traced

/-- The image `b` was written to page `n`. -/
def wrote (s : Traced) (p : Pager) (n : Nat) (b : Bytes) : Traced :=
  if s.pager.touched.isSome then ⟨p, s.durable, (n, b) :: s.pending⟩ else ⟨p, (n, b) :: s.durable, s.pending⟩

/-- One operation. One that raises changes nothing; a flush while a transaction is open is not made. -/
def step (s : Traced) : PagerOp → Option Traced
  | .get n =>
    match s.pager.get n with
    | .ok (_, p) => some { s with pager := p }
    | .error _ => some s
  | .write n data =>
    match s.pager.write n data with
    | .ok p => some (s.wrote p n (padTo pageSize data))
    | .error _ => some s
  | .allocate => some (s.wrote s.pager.allocate.2 s.pager.allocate.1 emptyPage.bytes)
  | .beginTxn =>
    match s.pager.beginTxn with
    | .ok p => some ⟨p, s.durable, []⟩
    | .error _ => some s
  | .rollbackTxn => some ⟨s.pager.rollbackTxn, s.durable, []⟩
  | .collectCommit =>
    match s.pager.collectCommit with
    | .ok (_, _, p) => some ⟨p, s.pending ++ s.durable, []⟩
    | .error _ => some s
  | .flush =>
    if s.pager.touched.isSome then none
    else
      match s.pager.flush with
      | .ok p => some { s with pager := p }
      | .error _ => some s

def init (file : Bytes) (cacheSize : Nat) (h : 0 < cacheSize) : Traced := ⟨Pager.openFile file cacheSize h, [], []⟩

end Traced

namespace Pager

/-- The data file after each round of `_evict_if_full`. -/
def evictFiles (p : Pager) : List Bytes :=
  if p.touched.isSome then [p.file]
  else (List.range (p.pool.pages.entries.length + 1)).map fun k => (evictLoop k p).file

/-- The data file at each moment of an operation: before it and after each of its page writes. -/
def filesDuring (p : Pager) : PagerOp → List Bytes
  | .get n =>
    if p.numPages ≤ n ∧ n ≠ 0 ∨ (p.pool.get n).isSome then [p.file]
    else ((p.newImage (readPage p.file n)).2).evictFiles
  | .write n data =>
    if pageSize < data.length then [p.file]
    else (((p.newImage (padTo pageSize data)).2).saveShadow n).evictFiles
  | .allocate => ({ p with numPages := p.numPages + 1 }.saveShadow p.numPages).evictFiles
  | .flush =>
    match poolImages p.pool (p.pool.dirty.insertionSort (· ≤ ·)) with
    | .ok images => (List.range (images.length + 1)).map fun k => writePages p.file (images.take k)
    | .error _ => [p.file]
  | _ => [p.file]

end Pager

/-- The page was there in the beginning, or written outside a transaction or by a committed one. -/
def Legit (file₀ : Bytes) (durable : List (Nat × Bytes)) (n : Nat) (b : Bytes) : Prop :=
  b = readPage file₀ n ∨ (n, b) ∈ durable

/-- What every run keeps. -/
structure Durable (file₀ : Bytes) (s : Traced) : Prop where
  wf : s.pager.WF
  file : ∀ n, Legit file₀ s.durable n (readPage s.pager.file n)
  dirty : ∀ n im, s.pager.cached n = some im → n ∈ s.pager.pool.dirty → n ∉ s.pager.touched.getD [] →
    Legit file₀ s.durable n im.bytes
  pending : ∀ n im, s.pager.cached n = some im → n ∈ s.pager.touched.getD [] → (n, im.bytes) ∈ s.pending

section Steps

variable {file₀ : Bytes} {s t : Traced} {p p' : Pager} {n : Nat} {im : Image} {durable pending : List (Nat × Bytes)}

/-- Evictions outside a transaction. -/
theorem Durable.evicts (h : Durable file₀ ⟨p, durable, pending⟩) (he : Pager.Evicts p p') (ht : p.touched = none) :
    Durable file₀ ⟨p', durable, pending⟩ where
  wf := he.wf h.wf ht
  file n := by
    change Legit file₀ durable n (readPage p'.file n)
    rcases hc : p.cached n with _ | im
    · rw [he.read_kept n (.inl hc)]
      exact h.file n
    rcases hc' : p'.cached n with _ | im'
    · by_cases hd : n ∈ p.pool.dirty
      · rw [he.read_dirty n im hc hc' hd]
        exact h.dirty n im hc hd (by simp [ht])
      · rw [he.read_clean n hd]
        exact h.file n
    · rw [he.read_kept n (.inr (by simp [hc']))]
      exact h.file n
  dirty n im hc hd hn := h.dirty n im (he.kept n im hc) ((he.dirty_iff n).1 hd).1 (by simp [ht])
  pending n im _ hn := by
    change n ∈ p'.touched.getD [] at hn
    rw [he.touched_eq, ht] at hn
    cases hn

/-- At each moment of the evictions an operation begins with. -/
theorem Durable.evictFiles (h : Durable file₀ ⟨p, durable, pending⟩) {f : Bytes} (hf : f ∈ p.evictFiles) (n : Nat) :
    Legit file₀ durable n (readPage f n) := by
  unfold Pager.evictFiles at hf
  split at hf
  · rw [List.mem_singleton.1 hf]
    exact h.file n
  · rename_i ht
    have ht : p.touched = none := by simpa using ht
    obtain ⟨k, -, rfl⟩ := List.mem_map.1 hf
    exact (h.evicts (Pager.evicts_evictLoop h.wf.live ht k) ht).file n

theorem Durable.newImage (h : Durable file₀ ⟨p, durable, pending⟩) (bytes : Bytes) :
    Durable file₀ ⟨(p.newImage bytes).2, durable, pending⟩ where
  wf := Pager.wf_newImage h.wf bytes
  file := h.file
  dirty := h.dirty
  pending := h.pending

theorem Durable.fetches (h : Durable file₀ ⟨p, durable, pending⟩) (hf : Pager.Fetches p p' n im) :
    Durable file₀ ⟨p', durable, pending⟩ := by
  have hcached : ∀ m im', p'.cached m = some im' → m ∈ p.pool.dirty → p.cached m = some im' := by
    intro m im' hc hd
    by_cases hm : m = n
    · subst hm
      rcases hf.source with hs | ⟨hs, -⟩
      · rw [hf.fetched] at hc
        cases hc
        exact hs
      · have := h.wf.dirty_cached m hd
        change (p.cached m).isSome at this
        rw [hs] at this
        cases this
    · exact hf.kept m im' hm hc
  refine ⟨hf.wf h.wf, fun m => ?_, fun m im' hc hd hn => ?_, fun m im' hc hn => ?_⟩
  · change Legit file₀ durable m (readPage p'.file m)
    by_cases ht : p.touched.isSome
    · rw [(hf.file_touched ht).1]
      exact h.file m
    have ht : p.touched = none := by simpa using ht
    rcases hc : p.cached m with _ | im'
    · rw [hf.read_kept m (.inl hc)]
      exact h.file m
    rcases hc' : p'.cached m with _ | im''
    · by_cases hd : m ∈ p.pool.dirty
      · rw [hf.read_dirty m im' hc hc' hd]
        exact h.dirty m im' hc hd (by simp [ht])
      · rw [hf.read_clean m hd]
        exact h.file m
    · rw [hf.read_kept m (.inr (by simp [hc']))]
      exact h.file m
  · change m ∉ p'.touched.getD [] at hn
    rw [hf.touched_eq] at hn
    have hd := ((hf.dirty_iff m).1 hd).1
    exact h.dirty m im' (hcached m im' hc hd) hd hn
  · change m ∈ p'.touched.getD [] at hn
    rw [hf.touched_eq] at hn
    exact h.pending m im' (hcached m im' hc (h.wf.touched_dirty m hn)) hn

theorem Legit.mono {durable' : List (Nat × Bytes)} {b : Bytes} (h : Legit file₀ durable n b) (hd : durable ⊆ durable') :
    Legit file₀ durable' n b :=
  h.imp_right fun hm => hd hm

/-- A write, with the image recorded as durable or pending. -/
theorem Durable.putPage (h : Durable file₀ ⟨p, durable, pending⟩) (im : Image) (hlen : im.bytes.length = pageSize)
    (hid : im.id < p.nextId) : Durable file₀ ((⟨p, durable, pending⟩ : Traced).wrote (p.putPage n im) n im.bytes) := by
  have hs := Pager.stores_putPage h.wf n im
  have hwf := hs.wf h.wf hlen hid
  have hcached : ∀ m im', m ≠ n → (p.putPage n im).cached m = some im' → p.cached m = some im' := hs.kept
  by_cases ht : p.touched.isSome
  · rw [Traced.wrote, if_pos ht]
    obtain ⟨l, hl⟩ := Option.isSome_iff_exists.1 ht
    have htouched : ∀ m, m ∈ (p.putPage n im).touched.getD [] ↔ m = n ∨ m ∈ p.touched.getD [] := by
      intro m
      rw [hs.touched_eq, hl]
      simp
    refine ⟨hwf, fun m => ?_, fun m im' hc hd hn => ?_, fun m im' hc hn => ?_⟩
    · change Legit file₀ durable m (readPage (p.putPage n im).file m)
      rw [(hs.file_touched ht).1]
      exact h.file m
    · change m ∉ (p.putPage n im).touched.getD [] at hn
      rw [htouched, not_or] at hn
      have hd := ((hs.dirty_iff m).1 hd).resolve_left hn.1
      exact h.dirty m im' (hcached m im' hn.1 hc) hd.1 hn.2
    · by_cases hm : m = n
      · subst hm
        obtain rfl : im = im' := Option.some.inj (hs.stored.symm.trans hc)
        exact List.mem_cons_self
      · change m ∈ (p.putPage n im).touched.getD [] at hn
        exact List.mem_cons_of_mem _ (h.pending m im' (hcached m im' hm hc) (((htouched m).1 hn).resolve_left hm))
  · have htn : p.touched = none := by simpa using ht
    rw [Traced.wrote, if_neg ht]
    have hsave : p.saveShadow n = p := by simp [Pager.saveShadow, htn]
    have hq := h.evicts (Pager.evicts_evictIfFull h.wf.live) htn
    have htouched : (p.putPage n im).touched = none := by rw [hs.touched_eq, htn]; rfl
    refine ⟨hwf, fun m => ?_, fun m im' hc hd hn => ?_, fun m im' hc hn => ?_⟩
    · have hfile : (p.putPage n im).file = p.evictIfFull.file := by rw [Pager.putPage, hsave]; rfl
      change Legit file₀ _ m (readPage (p.putPage n im).file m)
      rw [hfile]
      exact (hq.file m).mono (List.subset_cons_self _ _)
    · by_cases hm : m = n
      · subst hm
        obtain rfl : im = im' := Option.some.inj (hs.stored.symm.trans hc)
        exact .inr List.mem_cons_self
      · have hd := ((hs.dirty_iff m).1 hd).resolve_left hm
        exact (h.dirty m im' (hcached m im' hm hc) hd.1 (by simp [htn])).mono (List.subset_cons_self _ _)
    · change m ∈ (p.putPage n im).touched.getD [] at hn
      rw [htouched] at hn
      cases hn

theorem Durable.withNumPages (h : Durable file₀ ⟨p, durable, pending⟩) (k : Nat) (hk : 0 < k) :
    Durable file₀ ⟨{ p with numPages := k }, durable, pending⟩ :=
  ⟨{ h.wf with numPages_pos := hk }, h.file, h.dirty, h.pending⟩

/-- What one operation keeps. -/
theorem Durable.step (h : Durable file₀ s) {op : PagerOp} (hs : s.step op = some t) : Durable file₀ t := by
  obtain ⟨p, durable, pending⟩ := s
  rcases op with n | ⟨n, data⟩ | _ | _ | _ | _ | _
  · rw [Traced.step] at hs
    split at hs
    · rename_i im p' hg
      cases hs
      exact h.fetches (Pager.fetches_get h.wf hg)
    · cases hs
      exact h
  · rw [Traced.step] at hs
    split at hs
    · rename_i p' hw
      cases hs
      obtain ⟨hlen, rfl⟩ := Pager.write_eq_ok hw
      exact (h.newImage _).putPage ⟨p.nextId, padTo pageSize data⟩ (length_padTo hlen) (Nat.lt_succ_self _)
    · cases hs
      exact h
  · cases hs
    exact (h.withNumPages _ (Nat.succ_pos _)).putPage emptyPage (by simp [emptyPage]) h.wf.nextId_pos
  · rw [Traced.step] at hs
    split at hs
    · rename_i p' hb
      cases hs
      obtain ⟨ht, rfl⟩ := Pager.beginTxn_eq_ok hb
      have ht : p.touched = none := ht
      exact ⟨Pager.wf_begin h.wf, h.file, fun n im hc hd _ => h.dirty n im hc hd (by simp [ht]), fun n im _ hn => by simp at hn⟩
    · cases hs
      exact h
  · cases hs
    refine ⟨Pager.wf_rollbackTxn h.wf, h.file, fun n im hc hd _ => ?_, fun n im _ hn => by simp [Pager.rollbackTxn] at hn⟩
    obtain ⟨hd, hns⟩ := (Pager.mem_dirty_rollbackTxn p n).1 hd
    change p.rollbackTxn.cached n = some im at hc
    rw [Pager.cached_rollbackTxn, AList.lookup_eq_none.2 hns] at hc
    exact h.dirty n im hc hd fun hn => hns ((h.wf.shadow_touched n).2 hn)
  · rw [Traced.step] at hs
    split at hs
    · rename_i images numPages p' hc
      cases hs
      have hc' := Pager.collectCommit_eq h.wf
      rw [hc] at hc'
      cases hc'
      refine ⟨Pager.wf_commit h.wf, fun n => (h.file n).mono (List.subset_append_right _ _), fun n im hc hd _ => ?_,
        fun n im _ hn => by simp at hn⟩
      by_cases hn : n ∈ p.touched.getD []
      · exact .inr (List.mem_append_left _ (h.pending n im hc hn))
      · exact (h.dirty n im hc hd hn).mono (List.subset_append_right _ _)
    · cases hs
      exact h
  · rw [Traced.step] at hs
    split at hs
    · cases hs
    · rename_i ht
      have ht : p.touched = none := by simpa using ht
      split at hs
      · rename_i p' hf
        cases hs
        obtain ⟨hcached, hdirty, -, htouched, -⟩ := Pager.flush_fields h.wf hf
        refine ⟨Pager.wf_flush h.wf ht hf, fun n => ?_, fun n im _ hd _ => ?_, fun n im _ hn => ?_⟩
        · change Legit file₀ durable n (readPage p'.file n)
          rw [Pager.readPage_flush h.wf hf]
          split
          · rename_i hd
            obtain ⟨im, him⟩ := Option.isSome_iff_exists.1 (h.wf.dirty_cached n hd)
            change p.cached n = some im at him
            rw [Pager.content_of_cached him]
            exact h.dirty n im him hd (by simp [ht])
          · exact h.file n
        · change n ∈ p'.pool.dirty at hd
          rw [hdirty] at hd
          cases hd
        · change n ∈ p'.touched.getD [] at hn
          rw [htouched, ht] at hn
          cases hn
      · cases hs
        exact h

/-- The page put into the shadow before a write leaves the file alone. -/
theorem evictFiles_saveShadow {f : Bytes} (hf : f ∈ (p.saveShadow n).evictFiles) : f ∈ p.evictFiles := by
  by_cases ht : p.touched.isSome
  · have hkeep : (p.saveShadow n).touched = p.touched ∧ (p.saveShadow n).file = p.file := by
      unfold Pager.saveShadow
      split
      · split
        · exact ⟨rfl, rfl⟩
        · split <;> exact ⟨rfl, rfl⟩
      · exact ⟨rfl, rfl⟩
    rw [Pager.evictFiles, if_pos (hkeep.1 ▸ ht), hkeep.2] at hf
    rwa [Pager.evictFiles, if_pos ht]
  · have hsave : p.saveShadow n = p := by simp [Pager.saveShadow, ht]
    rwa [hsave] at hf

/-- Every page of the file is legitimate at each moment of an operation. -/
theorem Durable.filesDuring (h : Durable file₀ s) {op : PagerOp} (hs : s.step op = some t) {f : Bytes}
    (hf : f ∈ s.pager.filesDuring op) (n : Nat) : Legit file₀ s.durable n (readPage f n) := by
  obtain ⟨p, durable, pending⟩ := s
  have hsame : f ∈ [p.file] → Legit file₀ durable n (readPage f n) := by
    intro hf
    rw [List.mem_singleton.1 hf]
    exact h.file n
  rcases op with m | ⟨m, data⟩ | _ | _ | _ | _ | _
  · simp only [Pager.filesDuring] at hf
    split at hf
    · exact hsame hf
    · exact (h.newImage _).evictFiles hf n
  · simp only [Pager.filesDuring] at hf
    split at hf
    · exact hsame hf
    · exact (h.newImage _).evictFiles (evictFiles_saveShadow hf) n
  · exact (h.withNumPages _ (Nat.succ_pos _)).evictFiles (evictFiles_saveShadow hf) n
  · exact hsame hf
  · exact hsame hf
  · exact hsame hf
  · simp only [Pager.filesDuring] at hf
    rw [Pager.poolImages_eq_content fun m hm => h.wf.dirty_cached m (by simpa using hm)] at hf
    simp only at hf
    obtain ⟨k, -, rfl⟩ := List.mem_map.1 hf
    rw [← List.map_take, Pager.readPage_writePages fun m _ => h.wf.length_content m]
    split
    · rename_i hm
      have hd : n ∈ p.pool.dirty := by simpa using List.mem_of_mem_take hm
      have ht : p.touched = none := by
        rw [Traced.step] at hs
        split at hs
        · cases hs
        · rename_i ht
          simpa using ht
      obtain ⟨im, him⟩ := Option.isSome_iff_exists.1 (h.wf.dirty_cached n hd)
      change p.cached n = some im at him
      rw [Pager.content_of_cached him]
      exact h.dirty n im him hd (by simp [ht])
    · exact h.file n

theorem Durable.init (file : Bytes) (cacheSize : Nat) (hc : 0 < cacheSize) : Durable file (Traced.init file cacheSize hc) where
  wf := Pager.wf_openFile file cacheSize hc
  file _ := .inl rfl
  dirty n im hcached := by
    rw [Traced.init, Pager.cached_openFile] at hcached
    cases hcached
  pending n im hcached := by
    rw [Traced.init, Pager.cached_openFile] at hcached
    cases hcached

end Steps

/-- Uncommitted bytes never reach the data file. In every run, at every moment of its next operation and
after it, each page of the file is as in the beginning or has a durable image; an image that is not durable,
because its transaction is open or was rolled back, is not in the file. -/
theorem uncommitted_not_on_file (file : Bytes) (cacheSize : Nat) (hc : 0 < cacheSize) {ops : List PagerOp} {s t : Traced}
    {op : PagerOp} (hrun : Run Traced.step (fun _ _ => True) (Traced.init file cacheSize hc) ops s)
    (hop : s.step op = some t) :
    (∀ f ∈ s.pager.filesDuring op, ∀ n, Legit file s.durable n (readPage f n)) ∧
      (∀ n, Legit file t.durable n (readPage t.pager.file n)) ∧
      ∀ n b, ¬ Legit file t.durable n b → readPage t.pager.file n ≠ b := by
  have hs : Durable file s := hrun.invariant (fun _ _ _ h _ hstep => h.step hstep) (.init file cacheSize hc)
  have ht : Durable file t := hs.step hop
  refine ⟨fun f hf n => hs.filesDuring hop hf n, ht.file, fun n b hb he => hb ?_⟩
  exact he ▸ ht.file n

set_option maxRecDepth 20000 in
/-- Page 1 is written, and written again in a transaction that is rolled back; later page 0 is evicted with its
new image. -/
theorem uncommitted_not_on_file_rollback : ∃ s t,
    Run Traced.step (fun _ _ => True) (Traced.init [] 1 one_pos)
      [.write 1 [1], .beginTxn, .write 1 [2], .rollbackTxn, .write 0 [3]] s ∧ s.step (.get 1) = some t ∧
    readPage t.pager.file 0 = padTo pageSize [3] ∧ ∀ n, readPage t.pager.file n ≠ padTo pageSize [2] := by
  obtain ⟨s, hrun, t, ht, hfile, hdur⟩ : ∃ s, Run Traced.step (fun _ _ => True) (Traced.init [] 1 one_pos)
      [.write 1 [1], .beginTxn, .write 1 [2], .rollbackTxn, .write 0 [3]] s ∧ ∃ t, s.step (.get 1) = some t ∧
        t.pager.file = writePage [] 0 (padTo pageSize [3]) ∧ t.durable = [(0, padTo pageSize [3]), (1, padTo pageSize [1])] :=
    ⟨_, .cons trivial rfl <| .cons trivial rfl <| .cons trivial rfl <| .cons trivial rfl <| .cons trivial rfl (.nil _),
      _, rfl, rfl, rfl⟩
  refine ⟨s, t, hrun, ht, ?_, fun n => (uncommitted_not_on_file [] 1 one_pos hrun ht).2.2 n _ ?_⟩
  · rw [hfile, readPage_writePage (length_padTo (by decide)), if_pos rfl]
  · -- the bytes differ from zero and from those of the two durable images in the first place
    have hne : ∀ {b : Bytes}, b.getD 0 0 ≠ 2 → padTo pageSize [2] ≠ b := by
      rintro b hb rfl
      exact hb (by decide)
    rw [hdur]
    rintro (h | h)
    · refine hne ?_ h
      rw [getD_readPage]
      simp
    · simp only [List.mem_cons, Prod.mk.injEq, List.not_mem_nil, or_false] at h
      rcases h with ⟨-, h⟩ | ⟨-, h⟩
      · exact hne (by decide) h
      · exact hne (by decide) h

end LeafDb
