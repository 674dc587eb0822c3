import LeafDb.SessionsInv

/-!
# What a session reads between statements

A session that has just refreshed reads the committed image of every page, as long as

* a log with batches is not reset by an open while another session is open,
* a session that commits pages has adopted every batch before,
* a clean page leaves a pool only when the data file has it,
* a page a session writes to the data file is the committed one,
* a checkpoint, also the one of the last close, leaves the committed images in the file, and in the pool.

`FreshOk` says this of one action. The invariant (`Current`): away from the batches still unread, a session's
pages without its open transaction are the committed ones, and away from the batches in the log so are the
pages of the data file.
-/

namespace LeafDb

namespace Pager

/-- The pages that left the pool on the way from `p` to `p'`: a clean one is on the file, a dirty one has the
image `C` has. -/
def EvictsAs (C : Nat → Bytes) (p p' : Pager) : Prop :=
  ∀ n im, p.cached n = some im → p'.cached n = none →
    if n ∈ p.pool.dirty then im.bytes = C n else readPage p.file n = im.bytes

variable {C : Nat → Bytes} {p p' : Pager}

theorem Fetches.content_eq_of_evicts {n : Nat} {im : Image} (hf : Fetches p p' n im) (he : EvictsAs C p p') (m : Nat) :
    p'.content m = p.content m :=
  hf.content_eq fun im' hd => by
    have := he m im' hd.1 hd.2.1
    rw [if_neg hd.2.2.1] at this
    exact hd.2.2.2 this

theorem Fetches.base_eq_of_evicts {n : Nat} {im : Image} (hf : Fetches p p' n im) (h : p.WF) (he : EvictsAs C p p')
    (m : Nat) : p'.base m = p.base m := by
  by_cases ht : p.touched.isSome
  · exact hf.base_eq ht m
  · have ht : p.touched = none := by simpa using ht
    rw [(hf.wf h).base_eq_content (hf.touched_eq.trans ht), h.base_eq_content ht, hf.content_eq_of_evicts he]

/-- On the file such a read only moves pages to their image in `C`. -/
theorem Fetches.readPage_of_evicts {n : Nat} {im : Image} (hf : Fetches p p' n im) (he : EvictsAs C p p') (m : Nat) :
    readPage p'.file m = readPage p.file m ∨ readPage p'.file m = C m := by
  cases hc : p.cached m with
  | none => exact .inl (hf.read_kept m (.inl hc))
  | some im' =>
    cases hc' : p'.cached m with
    | some _ => exact .inl (hf.read_kept m (.inr (by rw [hc']; rfl)))
    | none =>
      by_cases hd : m ∈ p.pool.dirty
      · have := he m im' hc hc'
        rw [if_pos hd] at this
        exact .inr ((hf.read_dirty m im' hc hc' hd).trans this)
      · exact .inl (hf.read_clean m hd)

/-- What the file changes under a session is seen by it, if at all, as the new image. -/
theorem base_of_file {m : PagerMem} {f f' c : Bytes} {n : Nat} (hf : readPage f' n = readPage f n ∨ readPage f' n = c)
    (hb : base { m with file := f } n = c) : base { m with file := f' } n = c := by
  have hread : readPage f n = c → readPage f' n = c := fun h => hf.elim (fun hf => hf.trans h) id
  have hcontent : content { m with file := f } n = c → content { m with file := f' } n = c := by
    unfold content cached
    cases m.pool.pages.lookup n with
    | some im => exact id
    | none => exact hread
  cases hs : m.shadow.lookup n with
  | none =>
    simp only [base, hs] at hb ⊢
    exact hcontent hb
  | some o =>
    simp only [base, hs] at hb ⊢
    cases o with
    | none => exact hread hb
    | some im => exact hb

end Pager

/-! ### The batches behind a position -/

/-- Page `n` is in a batch behind offset `pos` of the log. -/
def Behind (log : Bytes) (pos n : Nat) : Prop :=
  ∃ bs, log.drop pos = blobs bs ∧ n ∈ (Batch.images bs).map Prod.fst

theorem behind_iff {log : Bytes} {pos : Nat} {bs : List Batch} (h : log.drop pos = blobs bs) (n : Nat) :
    Behind log pos n ↔ n ∈ (Batch.images bs).map Prod.fst := by
  constructor
  · rintro ⟨bs', h', hn⟩
    have hsame : blobs bs' ++ [] = blobs bs ++ [] := by rw [← h', ← h]
    rwa [(Wal.blobs_inj hsame Wal.torn_nil Wal.torn_nil).1] at hn
  · exact fun hn => ⟨bs, h, hn⟩

theorem not_behind {log : Bytes} {pos : Nat} (h : log.drop pos = []) (n : Nat) : ¬ Behind log pos n := by
  rw [behind_iff (show log.drop pos = blobs [] from h)]
  exact List.not_mem_nil

theorem behind_append {log : Bytes} {pos : Nat} {bs : List Batch} (hp : pos ≤ log.length)
    (hbs : log.drop pos = blobs bs) (b : Batch) (n : Nat) :
    Behind (log ++ b.blob) pos n ↔ Behind log pos n ∨ n ∈ b.pages.map Prod.fst := by
  have h : (log ++ b.blob).drop pos = blobs (bs ++ [b]) := by
    rw [List.drop_append_of_le_length hp, hbs, blobs_append, blobs_cons, blobs_nil, List.append_nil]
  rw [behind_iff h, behind_iff hbs, Batch.images_append, List.map_append, List.mem_append, Batch.images_cons,
    Batch.images_nil, List.append_nil]

namespace System

/-! ### The conditions -/

/-- The pager a close flushes: an open transaction is rolled back first. -/
def closing (s : System) (x : Session) : Pager :=
  if x.inTxn then (s.pagerOf x).rollbackTxn else s.pagerOf x

/-- Every dirty page has its committed image. -/
def DirtyCommitted (s : System) (p : Pager) : Prop := ∀ n ∈ p.pool.dirty, p.content n = s.committed n

/-- The file has the committed image of every page that is not dirty. -/
def RestOnFile (s : System) (p : Pager) : Prop := ∀ n, n ∉ p.pool.dirty → readPage s.file n = s.committed n

def FreshOk (s : System) : Action → Prop
  | .open _ _ => s.log.length ≤ Wal.header.length ∨ s.sess.keys = []
  | .refresh i reads => ∀ x, s.sess.lookup i = some x → ∀ batches,
      Wal.readBatchesFrom s.log x.walPos (s.sharedEnd.getD x.walPos) = .ok batches →
      Pager.AdoptsOk (Pager.EvictsAs s.committed) batches reads (s.pagerOf x)
  | .get i n => ∀ x, s.sess.lookup i = some x → Pager.GetsOk (Pager.EvictsAs s.committed) (s.pagerOf x) [n]
  | .commit i => ∀ x, s.sess.lookup i = some x → x.mem.touched.getD [] = [] ∨ x.walPos = s.log.length
  | .checkpoint i => ∀ x, s.sess.lookup i = some x → RestOnFile s (s.pagerOf x) ∧
      ∀ n im, (s.pagerOf x).cached n = some im → im.bytes = s.committed n
  | .close i checkpoint => ∀ x, s.sess.lookup i = some x → DirtyCommitted s (s.closing x) ∧
      (checkpoint = true ∧ s.alone i = true → RestOnFile s (s.closing x))
  | .begin _ | .write _ _ _ | .allocate _ | .rollback _ => True

theorem FreshOk.of_plain {s : System} {a : Action} (h : Plain s a) : FreshOk s a := by
  cases a with
  | «open» i cacheSize => exact .inl h
  | refresh i reads =>
    obtain rfl : reads = [] := h
    exact fun x _ batches _ => Pager.adoptsOk_nil batches _
  | commit i => exact fun x hx => .inr (h x hx)
  | begin | write => trivial
  | get | allocate | rollback | checkpoint | close => exact h.elim

theorem FreshOk.openAlone {s : System} {a : Action} (h : FreshOk s a) : OpenAlone s a := by
  cases a with
  | «open» i cacheSize => exact h
  | _ => trivial

/-- Away from unread batches every session's pages, and away from the log's batches the file's, are the
committed ones. -/
structure Current (s : System) : Prop where
  sound : Sound s
  file_eq : ∀ n, ¬ Behind s.log Wal.header.length n → readPage s.file n = s.committed n
  base_eq : ∀ i x, s.sess.lookup i = some x → ∀ n, ¬ Behind s.log x.walPos n → (s.pagerOf x).base n = s.committed n

variable {s t : System} {i : Nat} {x : Session} {p : Pager}

/-- An action that leaves the log alone and changes the file to committed images only. -/
theorem current_store (h : Current s) (ht : Sound (s.store i x p))
    (hfile : ∀ n, readPage p.file n = readPage s.file n ∨ readPage p.file n = s.committed n)
    (hbase : ∀ n, ¬ Behind s.log x.walPos n → p.base n = s.committed n) : Current (s.store i x p) where
  sound := ht
  file_eq n hn := (hfile n).elim (fun hf => hf.trans (h.file_eq n hn)) id
  base_eq k y hy n hn := by
    rw [lookup_store] at hy
    split at hy
    · cases hy
      exact hbase n hn
    · exact Pager.base_of_file (hfile n) (h.base_eq k y hy n hn)

theorem current_congr (h : Current s) (ht : Sound t) (hfile : t.file = s.file) (hlog : t.log = s.log)
    (hhist : t.history = s.history) (horig : t.orig = s.orig) (hsess : t.sess = s.sess) : Current t where
  sound := ht
  file_eq n hn := by
    rw [hlog] at hn
    rw [committed, hfile, hhist, horig]
    exact h.file_eq n hn
  base_eq k y hy n hn := by
    rw [hlog] at hn
    rw [hsess] at hy
    rw [pagerOf, committed, hfile, hhist, horig]
    exact h.base_eq k y hy n hn

/-! ### Every action keeps the committed pages -/

theorem committed_of_suffix {pre : List (List (Nat × Bytes))} {bs : List Batch}
    (h : s.history = pre ++ bs.map Batch.pages) {n : Nat} (hn : n ∈ (Batch.images bs).map Prod.fst) (c : Bytes) :
    imageAfter (Batch.images bs) c n = s.committed n := by
  rw [committed, h, List.flatten_append, imageAfter_append]
  exact imageAfter_of_mem hn _ _

theorem current_openFiles {cacheSize : Nat} (h : Current s) (hok : FreshOk s (.open i cacheSize))
    (ht : s.openFiles i cacheSize = some t) : Current t := by
  have hsound := sound_openFiles h.sound hok ht
  obtain ⟨hc, pre, pend, log, -, hhist, hpend, -, -, hlog, rfl⟩ := openFiles_cases h.sound hok ht
  have hfile : ∀ n, readPage (Batch.applyAll s.file pend) n = s.committed n := by
    intro n
    rw [readPage_applyAll]
    by_cases hn : n ∈ (Batch.images pend).map Prod.fst
    · exact committed_of_suffix hhist hn _
    · rw [imageAfter_of_notMem hn]
      exact h.file_eq n ((behind_iff hpend n).not.2 hn)
  refine ⟨hsound, fun n _ => hfile n, fun k y hy n hn => ?_⟩
  change (s.store i _ _).sess.lookup k = some y at hy
  rw [lookup_store] at hy
  split at hy
  · cases hy
    exact hfile n
  · rcases hlog with rfl | hk
    · exact Pager.base_of_file (.inr (hfile n)) (h.base_eq k y hy n hn)
    · rw [lookup_of_keys hk] at hy
      cases hy

theorem current_get {n : Nat} (h : Current s) (hok : FreshOk s (.get i n)) (ht : s.get i n = some t) : Current t := by
  have hsound := sound_step h.sound (a := .get i n) trivial ht
  obtain ⟨x, im, p, hx, hg, rfl⟩ := get_cases ht
  obtain ⟨unread, htr⟩ := h.sound.tracks i x hx
  have hf := Pager.fetches_get (htr.pager s) hg
  have he := (hok x hx im p hg).1
  exact current_store h hsound (hf.readPage_of_evicts he) fun m hm =>
    (hf.base_eq_of_evicts (htr.pager s) he m).trans (h.base_eq i x hx m hm)

/-- The first read of a session evicts nothing. -/
theorem getsOk_openFiles {C : Nat → Bytes} {cacheSize : Nat} (ht : s.openFiles i cacheSize = some t)
    (hx : t.sess.lookup i = some x) (n : Nat) : Pager.GetsOk (Pager.EvictsAs C) (t.pagerOf x) [n] :=
  fun _ _ _ => ⟨fun m _ hm _ => absurd ((cached_openFiles ht hx m).symm.trans hm) nofun, trivial⟩

theorem current_open {cacheSize : Nat} (h : Current s) (hok : FreshOk s (.open i cacheSize))
    (ht : s.openSession i cacheSize = some t) : Current t := by
  obtain ⟨u, hu, ht⟩ := openSession_cases ht
  exact current_get (current_openFiles h hok hu) (fun _ hx => getsOk_openFiles hu hx 0) ht

theorem current_begin (h : Current s) (ht : s.begin i = some t) : Current t := by
  have hsound := sound_step h.sound (a := .begin i) trivial ht
  obtain ⟨x, hx, hin, hnone, rfl⟩ := begin_cases ht
  obtain ⟨unread, htr⟩ := h.sound.tracks i x hx
  refine current_store h hsound (fun _ => .inl rfl) fun n hn => ?_
  rw [Pager.base_begin, ← (htr.pager s).base_eq_content hnone]
  exact h.base_eq i x hx n hn

/-- A write leaves the file and what was there before the transaction alone. -/
theorem current_writes {n : Nat} {data : Bytes} (h : Current s) (hx : s.sess.lookup i = some x)
    (hw : Pager.Writes (s.pagerOf x) p n data) (ht : Sound (s.store i x p)) : Current (s.store i x p) :=
  current_store h ht (fun _ => .inl (by rw [hw.file_eq]; rfl)) fun m hm =>
    (hw.base_eq m).trans (h.base_eq i x hx m hm)

theorem current_rollback (h : Current s) (ht : s.rollback i = some t) : Current t := by
  have hsound := sound_rollback h.sound ht
  obtain ⟨x, hx, hin, rfl⟩ := rollback_cases ht
  obtain ⟨unread, htr⟩ := h.sound.tracks i x hx
  refine current_store h hsound (fun _ => .inl rfl) fun n hn => ?_
  rw [(Pager.wf_rollbackTxn (htr.pager s)).base_eq_content rfl, Pager.content_rollbackTxn]
  exact h.base_eq i x hx n hn

/-- A page the open transaction has not written is as it was before the transaction. -/
theorem base_eq_content_of_notMem {unread : List Batch} (htr : x.Tracks s.log s.history unread) {n : Nat}
    (hn : n ∉ x.mem.touched.getD []) : (s.pagerOf x).base n = (s.pagerOf x).content n := by
  have hsh : x.mem.shadow.lookup n = none := AList.lookup_eq_none.2 fun hm => hn (((htr.pager s).shadow_touched n).1 hm)
  unfold Pager.base
  rw [show (s.pagerOf x).shadow.lookup n = none from hsh]

theorem current_commit (h : Current s) (hok : FreshOk s (.commit i)) (ht : s.commit i = some t) : Current t := by
  have hsound := sound_commit h.sound ht
  obtain ⟨x, hx, hin, hcase⟩ := commit_cases h.sound ht
  obtain ⟨unread, htr⟩ := h.sound.tracks i x hx
  have hwf := Pager.wf_commit (htr.pager s)
  -- committing shows what the session saw
  have hbase : ∀ n, Pager.base { s.pagerOf x with touched := none, shadow := ∅ } n = (s.pagerOf x).content n :=
    fun n => hwf.base_eq_content rfl n
  rcases hcase with ⟨hempty, rfl⟩ | ⟨b, hb, -, hne, heq⟩
  · refine current_store h hsound (fun _ => .inl rfl) fun n hn => ?_
    rw [hbase, ← base_eq_content_of_notMem htr (by rw [hempty]; exact List.not_mem_nil)]
    exact h.base_eq i x hx n hn
  · have hpos : x.walPos = s.log.length := (hok x hx).resolve_left hne
    have hle : Wal.header.length ≤ s.log.length := htr.header_le.trans htr.pos_le
    have hcommitted : ∀ n, t.committed n = if n ∈ x.mem.touched.getD [] then (s.pagerOf x).content n else s.committed n :=
      committed_commit hb (by rw [heq]) (by rw [heq]; rfl)
    subst heq
    have hkeys : b.pages.map Prod.fst = (s.pagerOf x).touchedPages := by rw [hb, List.map_map]; exact List.map_id _
    have hbehind : ∀ pos ≤ s.log.length, ∀ n, ¬ Behind (s.log ++ b.blob) pos n → (∃ bs, s.log.drop pos = blobs bs) →
        ¬ Behind s.log pos n ∧ n ∉ x.mem.touched.getD [] := by
      intro pos hp n hn ⟨bs, hbs⟩
      rw [behind_append hp hbs, not_or, hkeys, Pager.touchedPages, List.mem_insertionSort] at hn
      exact hn
    refine ⟨hsound, fun n hn => ?_, fun k y hy n hn => ?_⟩
    · obtain ⟨pre, pend, -, hlog⟩ := h.sound.pending
      obtain ⟨hn1, hn2⟩ := hbehind _ hle n hn ⟨pend, hlog⟩
      rw [hcommitted, if_neg hn2]
      exact h.file_eq n hn1
    · change (s.store i _ _).sess.lookup k = some y at hy
      rw [lookup_store] at hy
      split at hy
      · cases hy
        rw [hcommitted]
        refine (hbase n).trans ?_
        split
        · rfl
        · rw [← base_eq_content_of_notMem htr ‹_›]
          exact h.base_eq i x hx n (not_behind (by rw [hpos, List.drop_length]) n)
      · obtain ⟨unread', htr'⟩ := h.sound.tracks k y hy
        obtain ⟨hn1, hn2⟩ := hbehind _ htr'.pos_le n hn ⟨unread', htr'.position⟩
        rw [hcommitted, if_neg hn2]
        exact h.base_eq k y hy n hn1

theorem current_checkpoint (h : Current s) (hok : FreshOk s (.checkpoint i)) (ht : s.checkpoint i = some t) :
    Current t := by
  have hsound := sound_checkpoint h.sound ht
  obtain ⟨x, p, hx, hin, halone, hf, rfl⟩ := checkpoint_cases ht
  obtain ⟨unread, htr⟩ := h.sound.tracks i x hx
  obtain ⟨hrest, hpool⟩ := hok x hx
  obtain ⟨hcached, -, -, htouched, -⟩ := Pager.flush_fields (htr.pager s) hf
  have hfile : ∀ n, readPage p.file n = s.committed n := by
    intro n
    rw [Pager.readPage_flush (htr.pager s) hf]
    split
    · rename_i hd
      obtain ⟨im, him⟩ := Option.isSome_iff_exists.1 ((htr.pager s).dirty_cached n hd)
      rw [Pager.content_of_cached him]
      exact hpool n im him
    · exact hrest n ‹_›
  refine ⟨hsound, fun n _ => hfile n, fun k y hy n hn => ?_⟩
  change (s.store i _ _).sess.lookup k = some y at hy
  rw [lookup_store] at hy
  split at hy
  · cases hy
    have hnone : p.touched = none := htouched.trans (htr.touched_eq_none hin)
    refine ((Pager.wf_flush (htr.pager s) (htr.touched_eq_none hin) hf).base_eq_content hnone n).trans ?_
    cases hc : p.cached n with
    | none => exact (Pager.content_of_not_cached hc).trans (hfile n)
    | some im => exact (Pager.content_of_cached hc).trans (hpool n im (by rw [← hcached]; exact hc))
  · rw [(alone_iff s i).1 halone k ‹_›] at hy
    cases hy

theorem readPage_flush_cases {f : Pager} (hp : p.WF) (hf : p.flush = .ok f) (hdirty : DirtyCommitted s p) (n : Nat) :
    readPage f.file n = readPage p.file n ∨ readPage f.file n = s.committed n := by
  rw [Pager.readPage_flush hp hf]
  split
  · exact .inr (hdirty n ‹_›)
  · exact .inl rfl

/-- A close whose session is not the last one to go, or does not checkpoint. -/
theorem current_drop (h : Current s) (hx : s.sess.lookup i = some x) (hdirty : DirtyCommitted s (s.pagerOf x))
    (ht : s.drop i = some t) : Current t := by
  have hsound := sound_drop h.sound ht
  obtain ⟨x', p, hx', hf, rfl⟩ := drop_cases ht
  obtain rfl : x = x' := Option.some.inj (hx.symm.trans hx')
  obtain ⟨unread, htr⟩ := h.sound.tracks i x hx
  have hfile := readPage_flush_cases (htr.pager s) hf hdirty
  refine ⟨hsound, fun n hn => (hfile n).elim (fun hf => hf.trans (h.file_eq n hn)) id, fun k y hy n hn => ?_⟩
  change (s.sess.erase i).lookup k = some y at hy
  by_cases hk : k = i
  · subst hk
    rw [AList.lookup_erase] at hy
    cases hy
  · rw [AList.lookup_erase_ne hk] at hy
    exact Pager.base_of_file (hfile n) (h.base_eq k y hy n hn)

/-- The last close: when the log is reset, the flushed file has every committed page. -/
theorem current_checkpoint_drop (h : Current s) (hx : s.sess.lookup i = some x)
    (hdirty : DirtyCommitted s (s.pagerOf x)) (hrest : RestOnFile s (s.pagerOf x)) {s' : System}
    (ht : s.checkpoint i = some s') (ht' : s'.drop i = some t) : Current t := by
  have hsound := sound_drop (sound_checkpoint h.sound ht) ht'
  obtain ⟨x', p, hx', hin, halone, hf, rfl⟩ := checkpoint_cases ht
  obtain rfl : x = x' := Option.some.inj (hx.symm.trans hx')
  obtain ⟨y, q, hy, hf', rfl⟩ := drop_cases ht'
  change (s.store i _ p).sess.lookup i = some y at hy
  rw [lookup_store, if_pos rfl] at hy
  cases hy
  obtain ⟨unread, htr⟩ := h.sound.tracks i x hx
  obtain ⟨-, hclean, -, -⟩ := Pager.flush_fields (htr.pager s) hf
  have hfile : ∀ n, readPage q.file n = s.committed n := by
    intro n
    have hnone := htr.touched_eq_none hin
    have hq := Pager.readPage_flush (Pager.wf_flush (htr.pager s) hnone hf) hf' n
    rw [hclean, if_neg List.not_mem_nil] at hq
    rw [hq, Pager.readPage_flush (htr.pager s) hf]
    split
    · exact hdirty n ‹_›
    · exact hrest n ‹_›
  refine ⟨hsound, fun n _ => hfile n, fun k y hy n hn => ?_⟩
  change ((s.sess.insert i _).erase i).lookup k = some y at hy
  by_cases hk : k = i
  · subst hk
    rw [AList.lookup_erase] at hy
    cases hy
  · rw [AList.lookup_erase_ne hk, AList.lookup_insert_ne hk, (alone_iff s i).1 halone k hk] at hy
    cases hy

theorem alone_store (hx : (s.sess.lookup i).isSome) (x : Session) (p : Pager) (k : Nat) :
    (s.store i x p).alone k = s.alone k := by
  rw [Bool.eq_iff_iff, alone_iff, alone_iff]
  refine forall_congr' fun m => imp_congr_right fun _ => ?_
  rw [lookup_store]
  split
  · subst m
    cases hl : s.sess.lookup i with
    | none => rw [hl] at hx; cases hx
    | some y => simp
  · rfl

theorem current_close {checkpoint : Bool} (h : Current s) (hok : FreshOk s (.close i checkpoint))
    (ht : s.close i checkpoint = some t) : Current t := by
  obtain ⟨x, s1, s2, hx, h1, h2, h3⟩ := close_cases ht
  obtain ⟨hdirty, hrest⟩ := hok x hx
  -- after the rollback the session's pager is the one that is flushed
  obtain ⟨hs1, x1, hx1, hp1, hcomm, hfile, halone⟩ : Current s1 ∧ ∃ x1, s1.sess.lookup i = some x1 ∧
      s1.pagerOf x1 = s.closing x ∧ s1.committed = s.committed ∧ s1.file = s.file ∧ s1.alone i = s.alone i := by
    rcases h1 with ⟨hin, h1⟩ | ⟨hin, rfl⟩
    · have hs1 := current_rollback h h1
      obtain ⟨x', hx', -, rfl⟩ := rollback_cases h1
      obtain rfl : x = x' := Option.some.inj (hx.symm.trans hx')
      refine ⟨hs1, _, AList.lookup_insert _, ?_, rfl, rfl, alone_store (by rw [hx]; rfl) _ _ i⟩
      rw [closing, if_pos hin]
      rfl
    · exact ⟨h, x, hx, by rw [closing, hin]; rfl, rfl, rfl, rfl⟩
  have hdirty1 : DirtyCommitted s1 (s1.pagerOf x1) := by
    rw [hp1]
    intro n hn
    rw [hcomm]
    exact hdirty n hn
  rcases h2 with ⟨hc, h2⟩ | ⟨-, rfl⟩
  · rw [halone] at hc
    have hrest1 : RestOnFile s1 (s1.pagerOf x1) := by
      rw [hp1]
      intro n hn
      rw [hcomm, hfile]
      exact hrest hc n hn
    exact current_checkpoint_drop hs1 hx1 hdirty1 hrest1 h2 h3
  · exact current_drop hs1 hx1 hdirty1 h3

theorem current_refresh {reads : List (List Nat)} (h : Current s) (hok : FreshOk s (.refresh i reads))
    (ht : s.refresh i reads = some t) : Current t := by
  have hsound := sound_refresh h.sound ht
  obtain ⟨x, unread, hx, htr, ⟨-, rfl⟩ | ⟨-, -, e, -, rfl⟩ | ⟨hin, r, hr, hread, rfl⟩⟩ := refresh_cases h.sound ht
  · exact current_congr h hsound rfl rfl rfl rfl rfl
  · exact current_congr h hsound rfl rfl rfl rfl rfl
  have hstart : ∀ n, n ∉ (Batch.images unread).map Prod.fst → (s.pagerOf x).content n = s.committed n := by
    intro n hn
    rw [← (htr.pager s).base_eq_content (htr.touched_eq_none hin)]
    exact h.base_eq i x hx n ((behind_iff htr.position n).not.2 hn)
  obtain ⟨adopted, unread', rfl, hpos, ⟨hwf, hnone, -, hbase, hfile⟩, -⟩ := Pager.adoptAll_induct
    (P := fun p unread => p.WF ∧ p.touched = none ∧ (∃ pre, s.history = pre ++ unread.map Batch.pages) ∧
      (∀ n, n ∉ (Batch.images unread).map Prod.fst → p.content n = s.committed n) ∧
      ∀ n, readPage p.file n = readPage s.file n ∨ readPage p.file n = s.committed n)
    (fun p p' n im unread hp hg he => by
      obtain ⟨hwf, hnone, hpre, hbase, hfile⟩ := hp
      have hf := Pager.fetches_get hwf hg
      refine ⟨hf.wf hwf, hf.touched_eq.trans hnone, hpre, fun m hm => ?_, fun m => ?_⟩
      · rw [hf.content_eq_of_evicts he, hbase m hm]
      · exact (hf.readPage_of_evicts he m).elim (fun h => (hfile m).imp h.trans h.trans) .inr)
    (fun p b unread hp => by
      obtain ⟨hwf, hnone, ⟨pre, hpre⟩, hbase, hfile⟩ := hp
      have ha := Pager.adopts_adopt p b.pages b.numPages
      refine ⟨ha.wf hwf hnone b.page_length, ha.touched_eq.trans hnone, ⟨pre ++ [b.pages], ?_⟩, fun m hm => ?_,
        fun m => ?_⟩
      · rw [hpre, List.append_assoc]; rfl
      · rw [ha.content_eq]
        by_cases hb : m ∈ b.pages.map Prod.fst
        · have := committed_of_suffix hpre (n := m) (by rw [Batch.images_cons, List.map_append]
                                                        exact List.mem_append_left _ hb) (p.content m)
          rwa [Batch.images_cons, imageAfter_append, imageAfter_of_notMem hm] at this
        · rw [imageAfter_of_notMem hb]
          refine hbase m ?_
          rw [Batch.images_cons, List.map_append, List.mem_append, not_or]
          exact ⟨hb, hm⟩
      · rw [ha.file_eq]; exact hfile m)
    (hok x hx _ hread) ⟨htr.pager s, htr.touched_eq_none hin, htr.suffix, hstart, fun _ => .inl rfl⟩
  have h' := htr.advance hwf hnone
  rw [← hpos, ← hr, ← hin] at h'
  rw [← hr] at hwf hnone hbase hfile
  refine current_congr (current_store h (sound_store h.sound ⟨unread', h'⟩) hfile fun n hn => ?_) hsound rfl rfl rfl rfl rfl
  rw [hwf.base_eq_content hnone]
  exact hbase n ((behind_iff h'.position n).not.1 hn)

theorem current_step (h : Current s) {a : Action} (hok : FreshOk s a) (ht : s.step a = some t) : Current t := by
  cases a with
  | «open» i cacheSize => exact current_open h hok ht
  | refresh i reads => exact current_refresh h hok ht
  | get i n => exact current_get h hok ht
  | begin i => exact current_begin h ht
  | write i n data =>
    have hsound := sound_step h.sound (a := .write i n data) trivial ht
    obtain ⟨x, p, hx, hin, hw, rfl⟩ := write_cases ht
    obtain ⟨unread, htr⟩ := h.sound.tracks i x hx
    exact current_writes h hx (Pager.writes_write (htr.pager s) (htr.touched_isSome hin) hw) hsound
  | allocate i =>
    have hsound := sound_step h.sound (a := .allocate i) trivial ht
    obtain ⟨x, hx, hin, rfl⟩ := allocate_cases ht
    obtain ⟨unread, htr⟩ := h.sound.tracks i x hx
    exact current_writes h hx (Pager.writes_allocate (htr.pager s) (htr.touched_isSome hin)) hsound
  | commit i => exact current_commit h hok ht
  | rollback i => exact current_rollback h ht
  | checkpoint i => exact current_checkpoint h hok ht
  | close i checkpoint => exact current_close h hok ht

theorem current_init (file : Bytes) {log : Bytes} (h : log.length ≤ Wal.header.length) : Current (init file log) where
  sound := sound_init file h
  file_eq _ _ := rfl
  base_eq i x hx := by cases hx

theorem committed_close {ckpt : Bool} (ht : s.close i ckpt = some t) : t.committed = s.committed := by
  obtain ⟨y, s1, s2, -, h1, h2, h3⟩ := close_cases ht
  obtain ⟨z, p, -, -, rfl⟩ := drop_cases h3
  have h1 : s1.committed = s.committed := by
    rcases h1 with ⟨-, h1⟩ | ⟨-, rfl⟩
    · obtain ⟨z, -, -, rfl⟩ := rollback_cases h1
      rfl
    · rfl
  rcases h2 with ⟨-, h2⟩ | ⟨-, rfl⟩
  · obtain ⟨z, p, -, -, -, -, rfl⟩ := checkpoint_cases h2
    exact h1
  · exact h1

/-- The action may reset the log. -/
def Action.Resets : Action → Prop
  | .open _ _ | .checkpoint _ | .close _ _ => True
  | _ => False

/-- While another session is open, an action leaves the log and the committed pages alone, or appends a batch. -/
theorem log_step (hs : Sound s) {a : Action} (hok : OpenAlone s a) (ht : s.step a = some t)
    (hother : a.Resets → ∃ i x, i ≠ a.actor ∧ s.sess.lookup i = some x) :
    t.log = s.log ∧ t.committed = s.committed ∨ (∃ k, a = .commit k) ∧
      ∃ b : Batch, t.log = s.log ++ b.blob ∧ ∀ n, n ∉ b.pages.map Prod.fst → t.committed n = s.committed n := by
  cases a with
  | «open» k cacheSize =>
    obtain ⟨i, x, -, hx⟩ := hother trivial
    obtain ⟨u, hu, ht⟩ := openSession_cases ht
    obtain ⟨hc, pre, pend, log, -, -, -, -, -, hlog, rfl⟩ := openFiles_cases hs hok hu
    obtain ⟨y, im, p, -, -, rfl⟩ := get_cases ht
    rcases hlog with rfl | hk
    · exact .inl ⟨rfl, rfl⟩
    · rw [lookup_of_keys hk] at hx
      cases hx
  | refresh k reads =>
    obtain ⟨y, unread, -, -, ⟨-, rfl⟩ | ⟨-, -, e, -, rfl⟩ | ⟨-, q, -, -, rfl⟩⟩ := refresh_cases hs ht
    all_goals exact .inl ⟨rfl, rfl⟩
  | get k n =>
    obtain ⟨y, im, p, -, -, rfl⟩ := get_cases ht
    exact .inl ⟨rfl, rfl⟩
  | begin k =>
    obtain ⟨y, -, -, -, rfl⟩ := begin_cases ht
    exact .inl ⟨rfl, rfl⟩
  | write k n data =>
    obtain ⟨y, p, -, -, -, rfl⟩ := write_cases ht
    exact .inl ⟨rfl, rfl⟩
  | allocate k =>
    obtain ⟨y, -, -, rfl⟩ := allocate_cases ht
    exact .inl ⟨rfl, rfl⟩
  | commit k =>
    obtain ⟨y, -, -, ⟨-, rfl⟩ | ⟨b, -, -, -, rfl⟩⟩ := commit_cases hs ht
    · exact .inl ⟨rfl, rfl⟩
    · refine .inr ⟨⟨k, rfl⟩, b, rfl, fun n hn => ?_⟩
      show imageAfter (s.history ++ [b.pages]).flatten _ n = _
      rw [List.flatten_append, imageAfter_append, List.flatten_singleton, imageAfter_of_notMem hn]
      rfl
  | rollback k =>
    obtain ⟨y, -, -, rfl⟩ := rollback_cases ht
    exact .inl ⟨rfl, rfl⟩
  | checkpoint k =>
    obtain ⟨y, p, -, -, halone, -, -⟩ := checkpoint_cases ht
    obtain ⟨i, x, hi, hx⟩ := hother trivial
    rw [(alone_iff s k).1 halone i hi] at hx
    cases hx
  | close k checkpoint =>
    obtain ⟨i, x, hi, hx⟩ := hother trivial
    obtain ⟨y, s1, s2, -, h1, h2, h3⟩ := close_cases ht
    obtain ⟨hlog1, hcomm1, hx1⟩ : s1.log = s.log ∧ s1.committed = s.committed ∧ s1.sess.lookup i = some x := by
      rcases h1 with ⟨-, h1⟩ | ⟨-, rfl⟩
      · obtain ⟨z, -, -, rfl⟩ := rollback_cases h1
        exact ⟨rfl, rfl, (AList.lookup_insert_ne hi).trans hx⟩
      · exact ⟨rfl, rfl, hx⟩
    rcases h2 with ⟨⟨-, halone⟩, -⟩ | ⟨-, rfl⟩
    · rw [(alone_iff s1 k).1 halone i hi] at hx1
      cases hx1
    · obtain ⟨z, p, -, -, rfl⟩ := drop_cases h3
      exact .inl ⟨hlog1, hcomm1⟩

end System

end LeafDb
