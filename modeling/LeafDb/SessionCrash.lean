import LeafDb.LogCrash
import LeafDb.LogReset
import LeafDb.PagerBacked

/-!
# A session whose process dies

One session at a time on one path, over processes that die: between two actions, while pages are written to the data
file, in the middle of an append to the log, or in the middle of a reset. What a process has written to the data file
since it began may be lost or torn, but only on pages that the log has (`Leaves`); that the actions write no others is
part of the result. The next open gives every page its committed image, as long as an append begins on a log without
torn bytes and a rollback puts back only what the data file has.
-/

namespace LeafDb

/-- The pages of the batches `bs`. -/
def Batch.logged (bs : List Batch) : List Nat := (Batch.images bs).map Prod.fst

theorem Batch.mem_logged_append {bs bs' : List Batch} {n : Nat} :
    n ∈ Batch.logged (bs ++ bs') ↔ n ∈ Batch.logged bs ∨ n ∈ Batch.logged bs' := by
  rw [logged, Batch.images_append, List.map_append, List.mem_append]
  rfl

theorem Batch.logged_single (b : Batch) : Batch.logged [b] = b.pages.map Prod.fst := by
  simp [logged, Batch.images]

/-- The complete batches of a log are `bs`. -/
def Wal.Pending (log : Bytes) (bs : List Batch) : Prop := ∃ tail, log.drop header.length = blobs bs ++ tail ∧ Torn tail

theorem Wal.Pending.unique {log : Bytes} {bs bs' : List Batch} (h : Pending log bs) (h' : Pending log bs') : bs = bs' := by
  obtain ⟨tail, hlog, ht⟩ := h
  obtain ⟨tail', hlog', ht'⟩ := h'
  exact (blobs_inj (hlog.symm.trans hlog') ht ht').1

theorem Wal.pending_short {log : Bytes} (h : log.length ≤ header.length) : Pending log [] :=
  ⟨[], by rw [List.drop_of_length_le h]; rfl, torn_nil⟩

/-- On a log without torn bytes an append adds to the batches. -/
theorem Wal.Pending.append {log data : Bytes} {bs : List Batch} (h : Pending log bs) (hu : CrashState.Untorn log)
    (hlen : header.length ≤ log.length) : (log ++ data).drop header.length = blobs bs ++ data := by
  obtain ⟨bs', hbs'⟩ := hu
  obtain rfl := h.unique ⟨[], hbs'.trans (List.append_nil _).symm, torn_nil⟩
  rw [List.drop_append_of_le_length hlen, hbs']

namespace System

variable {s t : System} {i : Nat} {x y : Session} {p : Pager} {pend : List Batch}

/-! ### What happens -/

/-- What happens to the files of one path. -/
inductive Event
  | act (a : Action)
  /-- The process dies and leaves `file` of the data file. -/
  | kill (file : Bytes)
  /-- It dies in a commit, when `kept` bytes of the append are in the log. -/
  | killCommit (i kept : Nat) (file : Bytes)
  /-- It dies in an action that resets the log, when `kept` bytes of the new header are there. -/
  | killReset (a : Action) (kept : Nat)

/-- Nothing is left of the process. -/
def dead (s : System) (file log : Bytes) : System :=
  { s with file := file, log := log, sharedEnd := none, sess := ∅, refreshed := none }

def happens (s : System) : Event → Option System
  | .act a => s.step a
  | .kill file => some (s.dead file s.log)
  | .killCommit i kept file => (s.commit i).map fun t =>
    if s.log.length + kept < t.log.length then s.dead file (t.log.take (s.log.length + kept)) else t.dead file t.log
  | .killReset a kept => if s.resets a then (s.step a).map fun t => t.dead t.file (t.log.take kept) else none

/-- On a page that the log does not have, `file` is the data file. -/
def Leaves (s : System) (file : Bytes) : Prop := ∀ bs, Wal.Pending s.log bs → ∀ n, n ∉ Batch.logged bs →
  readPage file n = readPage s.file n ∧ ((n + 1) * pageSize ≤ s.file.length → (n + 1) * pageSize ≤ file.length)

/-- Session `i` acts; it appends to a log without torn bytes, and what it rolls back was on the data file before. -/
def Uses (i : Nat) (s : System) : Action → Prop
  | .open k _ | .refresh k _ | .get k _ | .begin k | .write k _ _ | .allocate k | .checkpoint k => k = i
  | .commit k => k = i ∧ ∀ x, s.sess.lookup i = some x → x.mem.touched.getD [] = [] ∨ CrashState.Untorn s.log
  | .rollback k => k = i ∧ ∀ x, s.sess.lookup i = some x → (s.pagerOf x).UndoOnFile
  | .close k _ => k = i ∧ ∀ x, s.sess.lookup i = some x → x.inTxn = true → (s.pagerOf x).UndoOnFile

def CrashOk (i : Nat) (s : System) : Event → Prop
  | .act a | .killReset a _ => Uses i s a
  | .kill file => s.Leaves file
  | .killCommit k _ file => Uses i s (.commit k) ∧ s.Leaves file

/-! ### The invariant -/

/-- The batches `pend` of the log have the committed images of their pages, the data file those of the others, and the
session that is open is backed by both. -/
structure Backed (i : Nat) (s : System) (pend : List Batch) : Prop where
  pending : Wal.Pending s.log pend
  last : ∀ n ∈ Batch.logged pend, ∀ c, imageAfter (Batch.images pend) c n = s.committed n
  file : Pager.OnFile s.committed s.Stored (Batch.logged pend) s.file
  others : ∀ k, k ≠ i → s.sess.lookup k = none
  tracks : ∀ x, s.sess.lookup i = some x → x.Tracks s.log s.history []
  session : ∀ x, s.sess.lookup i = some x → Pager.Backed s.committed s.Stored (Batch.logged pend) (s.pagerOf x)

namespace Backed

theorem store (h : Backed i s pend) (htr : Session.Tracks { y with mem := p.toPagerMem } s.log s.history [])
    (hp : Pager.Backed s.committed s.Stored (Batch.logged pend) p) : Backed i (s.store i y p) pend where
  pending := h.pending
  last := h.last
  file := hp.file
  others k hk := by rw [lookup_store, if_neg hk, h.others k hk]
  tracks z hz := by
    rw [lookup_store, if_pos rfl] at hz
    cases hz
    exact htr
  session z hz := by
    rw [lookup_store, if_pos rfl] at hz
    cases hz
    exact hp

theorem congr (h : Backed i s pend) (hfile : t.file = s.file) (hlog : t.log = s.log) (hhist : t.history = s.history)
    (horig : t.orig = s.orig) (hsess : t.sess = s.sess) : Backed i t pend := by
  obtain ⟨file, log, sharedEnd, sess, history, orig, refreshed⟩ := t
  cases hfile
  cases hlog
  cases hhist
  cases horig
  cases hsess
  exact ⟨h.pending, h.last, h.file, h.others, h.tracks, h.session⟩

/-- The process is gone. -/
theorem dead (h : Backed i s pend) {file log : Bytes} (hpend : Wal.Pending log pend)
    (hfile : Pager.OnFile s.committed s.Stored (Batch.logged pend) file) : Backed i (s.dead file log) pend where
  pending := hpend
  last := h.last
  file := hfile
  others _ _ := rfl
  tracks x hx := by cases hx
  session x hx := by cases hx

/-- What the process leaves is enough. -/
theorem left (h : Backed i s pend) {file : Bytes} (hl : s.Leaves file) :
    Pager.OnFile s.committed s.Stored (Batch.logged pend) file :=
  h.file.mono (fun n hn => (hl pend h.pending n hn).1) fun n hn => (hl pend h.pending n hn).2

theorem touched_isSome (h : Backed i s pend) (hx : s.sess.lookup i = some x) (hin : x.inTxn = true) :
    (s.pagerOf x).touched.isSome := (h.tracks x hx).touched_isSome hin

theorem touched_eq_none (h : Backed i s pend) (hx : s.sess.lookup i = some x) (hin : x.inTxn = false) :
    (s.pagerOf x).touched = none := (h.tracks x hx).touched_eq_none hin

/-- A session without a transaction reads the committed images. -/
theorem content_eq (h : Backed i s pend) (hx : s.sess.lookup i = some x) (hin : x.inTxn = false) (n : Nat) :
    (s.pagerOf x).content n = s.committed n := by
  rw [← (h.session x hx).wf.base_eq_content (h.touched_eq_none hx hin), (h.session x hx).base]

/-! ### The actions -/

theorem tracks_new {log : Bytes} (hwf : p.WF) (ht : p.touched = none) (hlen : Wal.header.length ≤ log.length)
    (history : List (List (Nat × Bytes))) : Session.Tracks ⟨p.toPagerMem, log.length, false⟩ log history [] :=
  ⟨hwf.file, by rw [ht]; rfl, by rw [ht]; exact List.nodup_nil, by rw [ht]; simp, hlen, le_rfl, List.drop_length, history,
    by simp⟩

theorem openFiles (h : Backed i s pend) {cacheSize : Nat} (ht : s.openFiles i cacheSize = some t) :
    Backed i t [] ∧ t.committed = s.committed := by
  obtain ⟨tail, hlog, htorn⟩ := h.pending
  unfold System.openFiles at ht
  split at ht
  swap
  · cases ht
  rename_i hc
  rw [Wal.recover_eq hlog htorn] at ht
  cases ht
  have hfile := h.file.applyAll h.last
  have hp := hfile.openFile hc.1
  refine ⟨?_, rfl⟩
  have hpend : Wal.Pending (if 0 < pend.length then Wal.header else Wal.openLog s.log) [] ∧
      Wal.header.length ≤ (if 0 < pend.length then Wal.header else Wal.openLog s.log).length := by
    split
    · exact ⟨Wal.pending_short le_rfl, le_rfl⟩
    · rename_i hz
      obtain rfl : pend = [] := by simpa using hz
      unfold Wal.openLog
      split
      · exact ⟨h.pending, ‹_›⟩
      · exact ⟨Wal.pending_short le_rfl, le_rfl⟩
  refine ⟨hpend.1, by simp [Batch.logged], hfile, fun k hk => ?_, fun x hx => ?_, fun x hx => ?_⟩
  · exact (lookup_store s i _ _ k).trans ((if_neg hk).trans (h.others k hk))
  · obtain rfl := Option.some.inj (((lookup_store s i _ _ i).trans (if_pos rfl)).symm.trans hx)
    exact tracks_new hp.wf rfl hpend.2 _
  · obtain rfl := Option.some.inj (((lookup_store s i _ _ i).trans (if_pos rfl)).symm.trans hx)
    exact hp

theorem get (h : Backed i s pend) {n : Nat} (ht : s.get i n = some t) : Backed i t pend := by
  obtain ⟨x, im, p, hx, hg, rfl⟩ := get_cases ht
  exact h.store ((h.tracks x hx).fetches (Pager.fetches_get (h.session x hx).wf hg)) ((h.session x hx).get hg)

theorem «open» (h : Backed i s pend) {cacheSize : Nat} (ht : s.openSession i cacheSize = some t) :
    Backed i t [] ∧ t.committed = s.committed := by
  obtain ⟨u, hu, ht⟩ := openSession_cases ht
  obtain ⟨h', hc⟩ := h.openFiles hu
  refine ⟨h'.get ht, ?_⟩
  obtain ⟨x, im, p, -, -, rfl⟩ := get_cases ht
  exact hc

theorem begin (h : Backed i s pend) (ht : s.begin i = some t) : Backed i t pend := by
  obtain ⟨x, hx, hin, htouched, rfl⟩ := begin_cases ht
  have hp := (h.session x hx).begin htouched
  exact h.store ((h.tracks x hx).store hp.wf rfl hp.nodup hp.touched_lt) hp

theorem write (h : Backed i s pend) {n : Nat} {data : Bytes} (ht : s.write i n data = some t) : Backed i t pend := by
  obtain ⟨x, p, hx, hin, hw, rfl⟩ := write_cases ht
  have htouched := h.touched_isSome hx hin
  exact h.store ((h.tracks x hx).writes (Pager.writes_write (h.session x hx).wf htouched hw)) ((h.session x hx).write htouched hw)

theorem allocate (h : Backed i s pend) (ht : s.allocate i = some t) : Backed i t pend := by
  obtain ⟨x, hx, hin, rfl⟩ := allocate_cases ht
  have htouched := h.touched_isSome hx hin
  exact h.store ((h.tracks x hx).writes (Pager.writes_allocate (h.session x hx).wf htouched)) ((h.session x hx).allocate htouched)

theorem rollback (h : Backed i s pend) (hu : ∀ x, s.sess.lookup i = some x → (s.pagerOf x).UndoOnFile)
    (ht : s.rollback i = some t) : Backed i t pend := by
  obtain ⟨x, hx, hin, rfl⟩ := rollback_cases ht
  have hp := (h.session x hx).rollback (hu x hx)
  exact h.store ((h.tracks x hx).store_of_not_touched hp.wf rfl) hp

/-- What is flushed and reset is on the data file. -/
theorem checkpoint (h : Backed i s pend) (ht : s.checkpoint i = some t) : Backed i t [] ∧ t.committed = s.committed := by
  obtain ⟨x, p, hx, hin, -, hf, rfl⟩ := checkpoint_cases ht
  have hnone := h.touched_eq_none hx hin
  have hp := (h.session x hx).flush hnone hf
  have htouched : p.touched = none := (Pager.flush_fields (h.session x hx).wf hf).2.2.2.1.trans hnone
  refine ⟨⟨Wal.pending_short le_rfl, by simp [Batch.logged], hp.file, fun k hk => ?_, fun y hy => ?_, fun y hy => ?_⟩, rfl⟩
  · exact (lookup_store s i _ _ k).trans ((if_neg hk).trans (h.others k hk))
  · obtain rfl := Option.some.inj (((lookup_store s i _ _ i).trans (if_pos rfl)).symm.trans hy)
    have htr : Session.Tracks ⟨p.toPagerMem, Wal.header.length, false⟩ Wal.header s.history [] :=
      tracks_new hp.wf htouched le_rfl _
    rwa [← hin] at htr
  · obtain rfl := Option.some.inj (((lookup_store s i _ _ i).trans (if_pos rfl)).symm.trans hy)
    exact hp

theorem drop (h : Backed i s pend) (hin : ∀ x, s.sess.lookup i = some x → x.inTxn = false) (ht : s.drop i = some t) :
    Backed i t pend := by
  obtain ⟨x, p, hx, hf, rfl⟩ := drop_cases ht
  have hp := (h.session x hx).flush (h.touched_eq_none hx (hin x hx)) hf
  have hgone : ∀ y : Session, (s.sess.erase i).lookup i ≠ some y := fun y hy => by
    rw [AList.lookup_erase] at hy
    cases hy
  exact ⟨h.pending, h.last, hp.file.of_nil _, fun k hk => (AList.lookup_erase_ne hk).trans (h.others k hk),
    fun y hy => absurd hy (hgone y), fun y hy => absurd hy (hgone y)⟩

/-- No session is in a transaction. -/
theorem close (h : Backed i s pend) {checkpoint : Bool}
    (hu : ∀ x, s.sess.lookup i = some x → x.inTxn = true → (s.pagerOf x).UndoOnFile) (ht : s.close i checkpoint = some t) :
    ∃ pend', Backed i t pend' ∧ (∀ n ∈ Batch.logged pend', n ∈ Batch.logged pend) ∧ t.committed = s.committed := by
  obtain ⟨x, s1, s2, hx, h1, h2, h3⟩ := close_cases ht
  have hs1 : Backed i s1 pend ∧ s1.committed = s.committed ∧ ∀ y, s1.sess.lookup i = some y → y.inTxn = false := by
    rcases h1 with ⟨hin, h1⟩ | ⟨hin, rfl⟩
    · refine ⟨h.rollback (fun y hy => hu y hy ?_) h1, ?_⟩
      · obtain rfl := Option.some.inj (hx.symm.trans hy)
        exact hin
      · obtain ⟨y, hy, -, rfl⟩ := rollback_cases h1
        refine ⟨rfl, fun z hz => ?_⟩
        obtain rfl := Option.some.inj (((lookup_store s i _ _ i).trans (if_pos rfl)).symm.trans hz)
        rfl
    · refine ⟨h, rfl, fun y hy => ?_⟩
      obtain rfl := Option.some.inj (hx.symm.trans hy)
      exact hin
  obtain ⟨hb1, hc1, hin1⟩ := hs1
  have hc3 : t.committed = s2.committed := by
    obtain ⟨y, p, -, -, rfl⟩ := drop_cases h3
    rfl
  rcases h2 with ⟨-, h2⟩ | ⟨-, rfl⟩
  · obtain ⟨hb2, hc2⟩ := hb1.checkpoint h2
    refine ⟨[], hb2.drop (fun y hy => ?_) h3, by simp [Batch.logged], hc3.trans (hc2.trans hc1)⟩
    obtain ⟨z, p, hz, hin, -, -, rfl⟩ := checkpoint_cases h2
    obtain rfl := Option.some.inj (((lookup_store s1 i _ _ i).trans (if_pos rfl)).symm.trans hy)
    exact hin
  · exact ⟨pend, hb1.drop hin1 h3, fun _ hn => hn, hc3.trans hc1⟩

/-- There is nothing to adopt. -/
theorem refresh (h : Backed i s pend) {reads : List (List Nat)} (ht : s.refresh i reads = some t) :
    Backed i t pend ∧ t.committed = s.committed := by
  unfold System.refresh at ht
  split at ht
  · cases ht
  rename_i x hx
  split at ht
  · cases ht
    exact ⟨h.congr rfl rfl rfl rfl rfl, rfl⟩
  simp only at ht
  split at ht
  · cases ht
    exact ⟨h.congr rfl rfl rfl rfl rfl, rfl⟩
  rename_i hin hstop
  have htr := h.tracks x hx
  have hlen := List.drop_eq_nil_iff.1 (htr.position.trans blobs_nil)
  rw [Wal.readBatchesFrom_eq htr.position (hlen.trans (not_le.1 hstop).le)] at ht
  cases ht
  exact ⟨(h.store htr (h.session x hx)).congr rfl rfl rfl rfl rfl, rfl⟩

/-- The pages a transaction wrote are committed with their images. -/
theorem commit (h : Backed i s pend)
    (hu : ∀ x, s.sess.lookup i = some x → x.mem.touched.getD [] = [] ∨ CrashState.Untorn s.log) (ht : s.commit i = some t) :
    t.file = s.file ∧ ∃ x, s.sess.lookup i = some x ∧ x.inTxn = true ∧
      ((∀ n, t.committed n = if n ∈ x.mem.touched.getD [] then (s.pagerOf x).content n else s.committed n) ∧
      (t.log = s.log ∧ t.history = s.history ∧ Backed i t pend ∨
        CrashState.Untorn s.log ∧ ∃ b : Batch, t.log = s.log ++ b.blob ∧ Backed i t (pend ++ [b]))) := by
  obtain ⟨x, hx, hin, hcase⟩ := commit_cases_of_tracks (fun x hx => ⟨[], h.tracks x hx⟩) ht
  have hp := h.session x hx
  rcases hcase with ⟨hempty, rfl⟩ | ⟨b, hb, -, hne, heq⟩
  · have htouched : ∀ n, n ∉ (s.pagerOf x).touched.getD [] := fun n hn => by
      change n ∈ x.mem.touched.getD [] at hn
      rw [hempty] at hn
      cases hn
    have hp' : Pager.Backed s.committed s.Stored (Batch.logged pend) { s.pagerOf x with touched := none, shadow := ∅ } :=
      hp.commit (fun n => (if_neg (htouched n)).symm) (fun n => by simp [htouched n]) fun n => by simp [htouched n]
    exact ⟨rfl, x, hx, hin, fun n => (if_neg (htouched n)).symm, .inl ⟨rfl, rfl, h.store
      ((h.tracks x hx).store_of_not_touched hp'.wf rfl) hp'⟩⟩
  have hcommitted : ∀ n, t.committed n = if n ∈ x.mem.touched.getD [] then (s.pagerOf x).content n else s.committed n :=
    committed_commit hb (by rw [heq]) (by rw [heq]; rfl)
  have hkeys : ∀ n, n ∈ b.pages.map Prod.fst ↔ n ∈ x.mem.touched.getD [] := fun n => by
    have : b.pages.map Prod.fst = (s.pagerOf x).touchedPages := by
      rw [hb, List.map_map]
      exact List.map_id _
    rw [this, Pager.touchedPages, List.mem_insertionSort]
    rfl
  have hlogged : ∀ n, n ∈ Batch.logged (pend ++ [b]) ↔ n ∈ Batch.logged pend ∨ n ∈ x.mem.touched.getD [] := fun n => by
    rw [Batch.mem_logged_append, Batch.logged_single, hkeys]
  have hstored : ∀ n, t.Stored n ↔ s.Stored n ∨ n ∈ x.mem.touched.getD [] := fun n => by
    rw [Stored, Stored, heq, List.flatten_append, List.map_append, List.mem_append, List.flatten_singleton, hkeys]
    exact or_right_comm
  have hp' := hp.commit hcommitted hstored hlogged
  have huntorn := (hu x hx).resolve_left hne
  have hlen : Wal.header.length ≤ s.log.length := (h.tracks x hx).header_le.trans (h.tracks x hx).pos_le
  refine ⟨by rw [heq]; rfl, x, hx, hin, hcommitted, .inr ⟨huntorn, b, by rw [heq], ⟨[], ?_, Wal.torn_nil⟩,
    fun n hn c => ?_, ?_, fun k hk => ?_, fun y hy => ?_, fun y hy => ?_⟩⟩
  · rw [heq, h.pending.append huntorn hlen, blobs_append, blobs_cons, blobs_nil, List.append_nil,
      List.append_nil]
  · have himage : t.committed n = imageAfter b.pages (s.committed n) n := by
      rw [committed, heq, List.flatten_append, imageAfter_append, List.flatten_singleton]
      rfl
    rw [Batch.images_append, imageAfter_append, himage]
    simp only [Batch.images, List.flatMap_cons, List.flatMap_nil, List.append_nil]
    by_cases hm : n ∈ b.pages.map Prod.fst
    · exact imageAfter_of_mem hm _ _
    · have hn' := ((hlogged n).1 hn).resolve_right fun ht => hm ((hkeys n).2 ht)
      exact congrArg (imageAfter b.pages · n) (h.last n hn' c)
  · have hfile : t.file = s.file := by rw [heq]; rfl
    rw [hfile]
    exact hp'.file
  · rw [heq]
    exact (lookup_store s i _ _ k).trans ((if_neg hk).trans (h.others k hk))
  · have hlook := hy
    rw [heq] at hlook ⊢
    obtain rfl := Option.some.inj (((lookup_store s i _ _ i).trans (if_pos rfl)).symm.trans hlook)
    exact tracks_new hp'.wf rfl (by simp only [List.length_append]; omega) _
  · have hlook := hy
    rw [heq] at hlook
    obtain rfl := Option.some.inj (((lookup_store s i _ _ i).trans (if_pos rfl)).symm.trans hlook)
    have hpager : t.pagerOf ⟨{ s.pagerOf x with touched := none, shadow := ∅ }.toPagerMem, (s.log ++ b.blob).length, false⟩ =
        { s.pagerOf x with touched := none, shadow := ∅ } := by
      rw [heq]
      rfl
    exact hpager ▸ hp'

/-- An action keeps the invariant; on the data file it changes logged pages only. -/
theorem step (h : Backed i s pend) {a : Action} (hok : Uses i s a) (ht : s.step a = some t) :
    ∃ pend', Backed i t pend' ∧
      (t.file = s.file ∨ (∀ n ∈ Batch.logged pend', n ∈ Batch.logged pend) ∧ t.committed = s.committed) := by
  cases a with
  | «open» k cacheSize =>
    obtain rfl : k = i := hok
    obtain ⟨h', hc⟩ := h.open ht
    exact ⟨[], h', .inr ⟨by simp [Batch.logged], hc⟩⟩
  | refresh k reads =>
    obtain rfl : k = i := hok
    obtain ⟨h', hc⟩ := h.refresh ht
    exact ⟨pend, h', .inr ⟨fun _ hn => hn, hc⟩⟩
  | get k n =>
    obtain rfl : k = i := hok
    refine ⟨pend, h.get ht, .inr ⟨fun _ hn => hn, ?_⟩⟩
    obtain ⟨x, im, p, -, -, rfl⟩ := get_cases ht
    rfl
  | begin k =>
    obtain rfl : k = i := hok
    refine ⟨pend, h.begin ht, .inl ?_⟩
    obtain ⟨x, -, -, -, rfl⟩ := begin_cases ht
    rfl
  | write k n data =>
    obtain rfl : k = i := hok
    refine ⟨pend, h.write ht, .inr ⟨fun _ hn => hn, ?_⟩⟩
    obtain ⟨x, p, -, -, -, rfl⟩ := write_cases ht
    rfl
  | allocate k =>
    obtain rfl : k = i := hok
    refine ⟨pend, h.allocate ht, .inr ⟨fun _ hn => hn, ?_⟩⟩
    obtain ⟨x, -, -, rfl⟩ := allocate_cases ht
    rfl
  | commit k =>
    obtain ⟨rfl, hu⟩ := hok
    obtain ⟨hfile, -, -, -, -, ⟨-, -, h'⟩ | ⟨-, b, -, h'⟩⟩ := h.commit hu ht
    · exact ⟨_, h', .inl hfile⟩
    · exact ⟨_, h', .inl hfile⟩
  | rollback k =>
    obtain ⟨rfl, hu⟩ := hok
    refine ⟨pend, h.rollback hu ht, .inl ?_⟩
    obtain ⟨x, -, -, rfl⟩ := rollback_cases ht
    rfl
  | checkpoint k =>
    obtain rfl : k = i := hok
    obtain ⟨h', hc⟩ := h.checkpoint ht
    exact ⟨[], h', .inr ⟨by simp [Batch.logged], hc⟩⟩
  | close k checkpoint =>
    obtain ⟨rfl, hu⟩ := hok
    obtain ⟨pend', h', hsub, hc⟩ := h.close hu ht
    exact ⟨pend', h', .inr ⟨hsub, hc⟩⟩

/-- An action that resets the log leaves the header. -/
theorem log_of_resets {a : Action} (hr : s.resets a = true) (ht : s.step a = some t) : t.log = Wal.header := by
  cases a with
  | «open» k cacheSize =>
    obtain ⟨u, hu, ht⟩ := openSession_cases ht
    obtain ⟨x, im, p, -, -, rfl⟩ := get_cases ht
    simp only [System.openFiles] at hu
    simp only [resets] at hr
    split at hu
    swap
    · cases hu
    split at hu
    · cases hu
    · rename_i heq
      rw [heq] at hr
      cases hu
      exact if_pos (by simpa using hr)
  | checkpoint k =>
    obtain ⟨x, p, -, -, -, -, rfl⟩ := checkpoint_cases ht
    rfl
  | close k checkpoint =>
    obtain ⟨x, s1, s2, hx, h1, h2, h3⟩ := close_cases ht
    simp only [resets, Bool.and_eq_true] at hr
    have halone : s1.alone k = true := by
      rcases h1 with ⟨-, h1⟩ | ⟨-, rfl⟩
      · obtain ⟨y, hy, -, rfl⟩ := rollback_cases h1
        rw [alone_store (by rw [hy]; rfl)]
        exact hr.2
      · exact hr.2
    obtain ⟨y, p, -, -, rfl⟩ := drop_cases h3
    rcases h2 with ⟨-, h2⟩ | ⟨hno, -⟩
    · obtain ⟨z, q, -, -, -, -, rfl⟩ := checkpoint_cases h2
      rfl
    · exact absurd ⟨hr.1, halone⟩ hno
  | refresh | get | begin | write | allocate | commit | rollback => cases hr

/-- By cases on how the process dies. -/
theorem happens (h : Backed i s pend) {e : Event} (hok : CrashOk i s e) (ht : s.happens e = some t) :
    ∃ pend', Backed i t pend' := by
  cases e with
  | act a =>
    obtain ⟨pend', h', -⟩ := h.step hok ht
    exact ⟨pend', h'⟩
  | kill file =>
    obtain rfl := Option.some.inj ht
    exact ⟨pend, h.dead h.pending (h.left hok)⟩
  | killCommit k kept file =>
    obtain ⟨⟨rfl, hu⟩, hleaves⟩ := hok
    obtain ⟨t', hcommit, heq⟩ := Option.map_eq_some_iff.1 ht
    obtain ⟨hfile, x, hx, hin, -, ⟨hlog, -, h'⟩ | ⟨huntorn, b, hlog, h'⟩⟩ := h.commit hu hcommit
    · rw [hlog, if_neg (by omega)] at heq
      subst heq
      refine ⟨pend, h'.dead h.pending (h'.file.mono (fun n hn => ?_) fun n hn => ?_)⟩ <;> rw [hfile]
      · exact (hleaves pend h.pending n hn).1
      · exact (hleaves pend h.pending n hn).2
    · have hlen : Wal.header.length ≤ s.log.length := (h.tracks x hx).header_le.trans (h.tracks x hx).pos_le
      rw [hlog, List.length_append] at heq
      split at heq
      · rename_i hkept
        subst heq
        -- the append is cut
        rw [List.take_length_add_append]
        exact ⟨pend, h.dead ⟨_, h.pending.append huntorn hlen, b, kept, by omega, rfl⟩ (h.left hleaves)⟩
      · subst heq
        -- the append is complete
        have hsub : ∀ n, n ∉ Batch.logged (pend ++ [b]) → n ∉ Batch.logged pend := fun n hn hm =>
          hn (Batch.mem_logged_append.2 (.inl hm))
        refine ⟨_, h'.dead (hlog ▸ h'.pending) (h'.file.mono (fun n hn => ?_) fun n hn => ?_)⟩ <;> rw [hfile]
        · exact (hleaves pend h.pending n (hsub n hn)).1
        · exact (hleaves pend h.pending n (hsub n hn)).2
  | killReset a kept =>
    rw [System.happens] at ht
    split at ht
    swap
    · cases ht
    rename_i hr
    obtain ⟨t', hstep, rfl⟩ := Option.map_eq_some_iff.1 ht
    obtain ⟨pend', h', -⟩ := h.step hok hstep
    have hlog := log_of_resets hr hstep
    have hshort : ∀ {data : Bytes}, data.length ≤ Wal.header.length → Wal.Pending data [] := Wal.pending_short
    obtain rfl := h'.pending.unique (hshort (by rw [hlog]))
    exact ⟨[], h'.dead (hshort (by rw [hlog]; exact List.length_take_le' _ _)) h'.file⟩

theorem init (i : Nat) (file : Bytes) {log : Bytes} (h : log.length ≤ Wal.header.length) :
    Backed i (System.init file log) [] where
  pending := Wal.pending_short h
  last n hn := by simp [Batch.logged] at hn
  file := ⟨fun _ _ => rfl, fun n hn => .inr (hn.resolve_left (by simp [System.init]))⟩
  others _ _ := rfl
  tracks x hx := by cases hx
  session x hx := by cases hx

theorem of_run {file log : Bytes} (hlog : log.length ≤ Wal.header.length) {es : List Event}
    (hrun : Run System.happens (CrashOk i) (System.init file log) es s) : ∃ pend, Backed i s pend :=
  hrun.invariant (P := fun s => ∃ pend, Backed i s pend) (fun _ _ _ ⟨_, h⟩ hok ht => h.happens hok ht) ⟨[], .init i file hlog⟩

end Backed

/-- The session goes on with a pager that is in a transaction when it was. -/
theorem Backed.put (h : Backed i s pend) (hx : s.sess.lookup i = some x)
    (hp : Pager.Backed s.committed s.Stored (Batch.logged pend) p) (ht : p.touched.isSome = x.inTxn) :
    Backed i (s.store i x p) pend :=
  h.store ((h.tracks x hx).store hp.wf ht.symm hp.nodup hp.touched_lt) hp

theorem lookup_store_self (s : System) (i : Nat) (x : Session) (p : Pager) :
    (s.store i x p).sess.lookup i = some { x with mem := p.toPagerMem } := (lookup_store s i x p i).trans (if_pos rfl)

/-- The session of an open. -/
theorem lookup_openFiles {cacheSize : Nat} (ht : s.openFiles i cacheSize = some t) (hx : t.sess.lookup i = some x) :
    x.inTxn = false := by
  obtain ⟨-, hc, file, log, rfl⟩ := openFiles_eq ht
  cases (lookup_store_self s i _ _).symm.trans hx
  rfl

/-- The session after a commit. -/
theorem Backed.lookup_commit (h : Backed i s pend) (hx : s.sess.lookup i = some x) (ht : s.commit i = some t) :
    ∃ y, t.sess.lookup i = some y ∧ y.inTxn = false ∧ t.pagerOf y = { s.pagerOf x with touched := none, shadow := ∅ } := by
  obtain ⟨z, hz, -, ⟨-, rfl⟩ | ⟨b, -, -, -, rfl⟩⟩ := commit_cases_of_tracks (fun x hx => ⟨[], h.tracks x hx⟩) ht
  all_goals
    obtain rfl := Option.some.inj (hz.symm.trans hx)
    exact ⟨_, lookup_store_self s i _ _, rfl, rfl⟩

/-- A commit returns when the page count fits its field. -/
theorem Backed.exists_commit (h : Backed i s pend) (hx : s.sess.lookup i = some x) (hin : x.inTxn = true)
    (hnum : x.mem.numPages < 256 ^ 4) : ∃ t, s.commit i = some t := by
  have htr := h.tracks x hx
  obtain ⟨b, hb, hbn⟩ := exists_batch_of_lt htr hnum
  rw [System.commit, hx]
  simp only [hin, if_true]
  rw [Pager.collectCommit_eq (h.session x hx).wf]
  simp only
  split
  · exact ⟨_, rfl⟩
  · have happ := Wal.appendBatch_eq s.log b
    rw [hb, hbn] at happ
    rw [show (s.pagerOf x).numPages = x.mem.numPages from rfl, happ]
    exact ⟨_, rfl⟩

theorem Backed.exists_checkpoint (h : Backed i s pend) (hx : s.sess.lookup i = some x) (hin : x.inTxn = false) :
    ∃ t, s.checkpoint i = some t := by
  obtain ⟨file, hf, -⟩ := Pager.flush_eq (h.session x hx).wf
  have halone : s.alone i = true := (alone_iff s i).2 h.others
  rw [System.checkpoint, hx]
  simp only [hin, halone, and_self, if_true, hf]
  exact ⟨_, rfl⟩

theorem lookup_close {checkpoint : Bool} (ht : s.close i checkpoint = some t) : t.sess.lookup i = none := by
  obtain ⟨x, s1, s2, -, -, -, h3⟩ := close_cases ht
  obtain ⟨y, p, -, -, rfl⟩ := drop_cases h3
  exact AList.lookup_erase ..

/-- An action that resets the log commits nothing. -/
theorem Backed.committed_of_resets (h : Backed i s pend) {a : Action} (hok : Uses i s a) (hr : s.resets a = true)
    (ht : s.step a = some t) : t.committed = s.committed := by
  cases a with
  | «open» k cacheSize =>
    obtain rfl : k = i := hok
    exact (h.open ht).2
  | checkpoint k =>
    obtain rfl : k = i := hok
    exact (h.checkpoint ht).2
  | close k checkpoint =>
    obtain ⟨rfl, hu⟩ := hok
    obtain ⟨-, -, -, hc⟩ := h.close hu ht
    exact hc
  | refresh | get | begin | write | allocate | commit | rollback => cases hr

theorem orig_happens {e : Event} (ht : s.happens e = some t) : t.orig = s.orig := by
  cases e with
  | act a => exact System.orig_step ht
  | kill file =>
    obtain rfl := Option.some.inj ht
    rfl
  | killCommit k kept file =>
    obtain ⟨u, hu, rfl⟩ := Option.map_eq_some_iff.1 ht
    split
    · rfl
    · exact (System.orig_step (a := .commit k) hu : u.orig = s.orig)
  | killReset a kept =>
    rw [System.happens] at ht
    split at ht
    · obtain ⟨u, hu, rfl⟩ := Option.map_eq_some_iff.1 ht
      exact (System.orig_step hu : u.orig = s.orig)
    · cases ht

/-- A page that was never committed and is not on the data file of the beginning is zero. -/
theorem committed_of_not_stored (hwhole : pageSize ∣ s.orig.length) {n : Nat} (hn : ¬s.Stored n) :
    s.committed n = emptyPage.bytes := by
  obtain ⟨hhist, hlen⟩ := not_or.1 hn
  obtain ⟨k, hk⟩ := hwhole
  have hkn : k ≤ n := by
    rw [hk, Nat.mul_comm, Nat.mul_le_mul_left_iff (by decide)] at hlen
    omega
  have hout : s.orig.length ≤ n * pageSize := by
    rw [hk, Nat.mul_comm]
    exact Nat.mul_le_mul_right _ hkn
  rw [committed, imageAfter_of_notMem hhist, readPage, readAt, List.drop_of_length_le hout]
  rfl

/-! ### What a session reads -/

/-- A read gives the committed image. -/
def ReadsCommitted (s : System) (x : Session) : Prop := ∀ n im p, (s.pagerOf x).get n = .ok (im, p) → im.bytes = s.committed n

theorem Backed.readsCommitted (h : Backed i s pend) (hx : s.sess.lookup i = some x) (hin : x.inTxn = false) :
    s.ReadsCommitted x := by
  intro n im p hg
  rw [(Pager.fetches_get (h.session x hx).wf hg).bytes_eq, h.content_eq hx hin]

theorem Backed.exists_openFiles (h : Backed i s pend) (hx : s.sess.lookup i = none) {cacheSize : Nat} (hc : 0 < cacheSize) :
    ∃ t x, s.openFiles i cacheSize = some t ∧ t.sess.lookup i = some x ∧ x.inTxn = false := by
  obtain ⟨tail, hlog, htorn⟩ := h.pending
  rw [System.openFiles, dif_pos ⟨hc, AList.lookup_eq_none.1 hx⟩, Wal.recover_eq hlog htorn]
  exact ⟨_, _, rfl, lookup_store_self s i _ _, rfl⟩

/-- An open returns. -/
theorem Backed.exists_open (h : Backed i s pend) (hx : s.sess.lookup i = none) {cacheSize : Nat} (hc : 0 < cacheSize) :
    ∃ t x, s.step (.open i cacheSize) = some t ∧ t.sess.lookup i = some x ∧ x.inTxn = false ∧ t.Stored = s.Stored := by
  obtain ⟨tail, hlog, htorn⟩ := h.pending
  obtain ⟨t, x, ht, hsess, -, -, hin, -, -, hhist, horig, -⟩ :=
    exists_open_of_recover hc hx (Wal.recover_eq hlog htorn s.file)
  refine ⟨t, x, ht, by rw [hsess]; exact AList.lookup_insert _, hin, ?_⟩
  unfold Stored
  rw [hhist, horig]

/-- In every run, however often the process dies, a session outside a transaction reads the last committed image of
every page, a closed database can be opened, the session that opens it reads the last committed images and has no
page that was committed yet to give out, and no action changes a page of the data file that the log does not have. -/
theorem committed_of_crash {file log : Bytes} (hlog : log.length ≤ Wal.header.length) {es : List Event}
    (hrun : Run happens (CrashOk i) (init file log) es s) :
    (∀ x, s.sess.lookup i = some x → x.inTxn = false → s.ReadsCommitted x) ∧
    (s.sess.lookup i = none → ∀ cacheSize, 0 < cacheSize → ∃ t x, s.step (.open i cacheSize) = some t ∧
      t.sess.lookup i = some x ∧ t.ReadsCommitted x ∧ t.committed = s.committed ∧ ∀ n, s.Stored n → n < x.mem.numPages) ∧
    ∀ a t, Uses i s a → s.step a = some t → ∀ bs, Wal.Pending s.log bs → ∀ n, n ∉ Batch.logged bs →
      readPage t.file n = readPage s.file n := by
  obtain ⟨pend, h⟩ := Backed.of_run hlog hrun
  refine ⟨fun x hx hin => h.readsCommitted hx hin, fun hnone cacheSize hc => ?_, fun a t hok ht bs hbs n hn => ?_⟩
  · obtain ⟨t, x, ht, hx, hin, hstored⟩ := h.exists_open hnone hc
    obtain ⟨h', hcommitted⟩ := h.open ht
    exact ⟨t, x, ht, hx, h'.readsCommitted hx hin, hcommitted, hstored ▸ (h'.session x hx).numPages⟩
  · obtain rfl := h.pending.unique hbs
    obtain ⟨pend', h', hfile | ⟨hsub, hcommitted⟩⟩ := h.step hok ht
    · rw [hfile]
    · rw [h'.file.read n fun hm => hn (hsub n hm), hcommitted, h.file.read n hn]

/-- The process dies when five bytes of its first commit are in the log. -/
theorem committed_of_crash_cut : ∃ s t x, Run happens (CrashOk 0) (init [] [])
    [.act (.open 0 1), .act (.begin 0), .act (.write 0 1 [1]), .killCommit 0 5 []] s ∧
      s.step (.open 0 1) = some t ∧ t.sess.lookup 0 = some x ∧ t.ReadsCommitted x := by
  obtain ⟨b, hb, hnum⟩ : ∃ b : Batch, b.pages = [(1, padTo pageSize [1])] ∧ b.numPages = 2 :=
    ⟨.single 1 _ 2 (by decide) length_marked (by norm_num), rfl, rfl⟩
  obtain ⟨s, x, p, hrun, hx, hin, hcollect, hfile, hlog⟩ : ∃ s x p,
      Run happens (CrashOk 0) (init [] []) [.act (.open 0 1), .act (.begin 0), .act (.write 0 1 [1])] s ∧
      s.sess.lookup 0 = some x ∧ x.inTxn = true ∧ (s.pagerOf x).collectCommit = .ok ([(1, padTo pageSize [1])], 2, p) ∧
      s.file = [] ∧ s.log = Wal.header :=
    ⟨_, _, _, .cons rfl rfl (.cons rfl rfl (.cons rfl rfl (.nil _))), rfl, rfl, rfl, rfl, rfl⟩
  rw [← hb, ← hnum] at hcollect
  have hcommit : s.commit 0 = some _ := step_commit b hx hin hcollect (by rw [hb]; exact List.cons_ne_nil _ _)
  have huses : Uses 0 s (.commit 0) := ⟨rfl, fun _ _ => .inr ⟨[], by rw [hlog]; rfl⟩⟩
  have hleaves : s.Leaves [] := fun _ _ n _ => by rw [hfile]; exact ⟨rfl, id⟩
  obtain ⟨s', hkill, hnone⟩ : ∃ s', s.happens (.killCommit 0 5 []) = some s' ∧ s'.sess.lookup 0 = none := by
    rw [happens, hcommit, Option.map_some]
    exact ⟨_, rfl, by split <;> rfl⟩
  have hok : CrashOk 0 s (.killCommit 0 5 []) := ⟨huses, hleaves⟩
  have hrun := hrun.append (.single hok hkill)
  obtain ⟨t, y, ht, hy, hreads, -⟩ := (committed_of_crash (Nat.zero_le _) hrun).2.1 hnone 1 Nat.one_pos
  exact ⟨_, t, y, hrun, ht, hy, hreads⟩

end System

end LeafDb
