import LeafDb.FreshRead

/-!
# The data file after all sessions have closed

The last committed image of a page is on the data file, or an open session has it as a dirty page and has no
unread batch with the page (`Owner`): it is the session that committed it last. Every dirty page goes to the
file when it is evicted or its session closes, so once no session is open the file has all committed images,
provided no session writes an older image of a page after its owner wrote the last one (`KeepsLast`).
-/

namespace LeafDb

namespace Pager
variable {p p' : Pager} {n : Nat} {c : Bytes}

/-- Page `n` is dirty and had image `c` before the open transaction, whatever the file has. -/
def Holds (p : Pager) (n : Nat) (c : Bytes) : Prop :=
  n ∈ p.pool.dirty ∧ ∀ f, base { p with file := f } n = c

theorem Fetches.holds {m : Nat} {im : Image} (hf : Fetches p p' m im) (h : p.WF) (hn : Holds p n c)
    (hkept : (p'.cached n).isSome) : Holds p' n c := by
  refine ⟨(hf.dirty_iff n).2 ⟨hn.1, hkept⟩, fun f => ?_⟩
  have hcached : p'.cached n = p.cached n := by
    by_cases hnm : n = m
    · subst hnm
      rcases hf.source with hs | ⟨hs, -⟩
      · rw [hf.fetched, hs]
      · have := h.dirty_cached n hn.1
        rw [hs] at this
        cases this
    · obtain ⟨im', him'⟩ := Option.isSome_iff_exists.1 hkept
      rw [him', hf.kept n im' hnm him']
  rw [base_congr (by rw [hf.shadow_eq]) hcached]
  exact hn.2 f

theorem Writes.holds {m : Nat} {data : Bytes} (hw : Writes p p' m data) (h : p.WF) (hn : Holds p n c) :
    Holds p' n c :=
  ⟨(hw.mem_dirty n).2 (.inr hn.1), fun f => (hw.base_cached n (h.dirty_cached n hn.1) f).trans (hn.2 f)⟩

theorem Adopts.holds {images : List (Nat × Bytes)} (ha : Adopts p p' images) (hn : Holds p n c)
    (hnot : n ∉ images.map Prod.fst) : Holds p' n c :=
  ⟨(ha.dirty_iff n).2 ⟨hn.1, hnot⟩, fun f =>
    (base_congr (by rw [ha.shadow_eq]) (ha.cached_other n hnot) f).trans (hn.2 f)⟩

/-- A dirty page the open transaction has not written is held as it is in the pool. -/
theorem holds_commit (h : p.WF) (hd : n ∈ p.pool.dirty) :
    Holds { p with touched := none, shadow := ∅ } n (p.content n) := by
  obtain ⟨im, him⟩ := Option.isSome_iff_exists.1 (h.dirty_cached n hd)
  refine ⟨hd, fun f => ?_⟩
  rw [content_of_cached him]
  exact content_of_cached (p := { p with touched := none, shadow := ∅, file := f }) him

theorem holds_begin (hshadow : p.shadow.lookup n = none) (hn : Holds p n c) :
    Holds { p with touched := some [], shadow := ∅ } n c :=
  ⟨hn.1, fun f => (@base_congr p { p with touched := some [], shadow := ∅ } n (by rw [hshadow]; rfl) rfl f).trans
    (hn.2 f)⟩

/-- The dirty pages that left the pool on the way from `p` to `p'` have their image in `C`, or meet `held`. -/
def EvictsHeld (C : Nat → Bytes) (held : Nat → Prop) (p p' : Pager) : Prop :=
  ∀ n im, p.cached n = some im → p'.cached n = none → n ∈ p.pool.dirty → im.bytes = C n ∨ held n

end Pager

namespace System
variable {s t : System} {i k n : Nat} {x : Session} {p : Pager}

/-- Session `k` has the last committed image of page `n`, and has it dirty. -/
def Owner (s : System) (k n : Nat) : Prop :=
  ∃ y, s.sess.lookup k = some y ∧ (s.pagerOf y).Holds n (s.committed n) ∧ ¬ Behind s.log y.walPos n

/-- A session other than `i` owns page `n`. -/
def OwnedElsewhere (s : System) (i n : Nat) : Prop := ∃ k, k ≠ i ∧ Owner s k n

/-- A dirty page is written to the file with its last committed image, or while another session owns it. -/
def KeepsLast (s : System) : Action → Prop
  | .open _ _ => s.log.length ≤ Wal.header.length ∨ s.sess.keys = []
  | .refresh i reads => ∀ x, s.sess.lookup i = some x → ∀ batches,
      Wal.readBatchesFrom s.log x.walPos (s.sharedEnd.getD x.walPos) = .ok batches →
      Pager.AdoptsOk (Pager.EvictsHeld s.committed (s.OwnedElsewhere i)) batches reads (s.pagerOf x)
  | .get i n => ∀ x, s.sess.lookup i = some x →
      Pager.GetsOk (Pager.EvictsHeld s.committed (s.OwnedElsewhere i)) (s.pagerOf x) [n]
  | .checkpoint i | .close i _ => ∀ x, s.sess.lookup i = some x → ∀ n ∈ x.mem.pool.dirty,
      (s.pagerOf x).content n = s.committed n ∨ s.OwnedElsewhere i n
  | .begin _ | .write _ _ _ | .allocate _ | .commit _ | .rollback _ => True

/-- Transactions commit, do not overlap, and begin right after `refresh_from_wal`. -/
def OneAtATime (s : System) : Action → Prop
  | .begin i => s.refreshed = some i ∧ ∀ k y, s.sess.lookup k = some y → y.inTxn = false
  | .rollback _ => False
  | .close i _ => ∀ x, s.sess.lookup i = some x → x.inTxn = false
  | _ => True

/-- The file has the last committed image of a page, or a session owns the page. -/
structure Owned (s : System) : Prop where
  sound : Sound s
  owned : ∀ n, readPage s.file n = s.committed n ∨ ∃ k, Owner s k n

theorem owner_store (h : Owner s k n) (hk : k ≠ i) : Owner (s.store i x p) k n := by
  obtain ⟨y, hy, hh, hb⟩ := h
  exact ⟨y, by rw [lookup_store, if_neg hk]; exact hy, hh, hb⟩

theorem owner_self (hh : p.Holds n (s.committed n)) (hb : ¬ Behind s.log x.walPos n) : Owner (s.store i x p) i n :=
  ⟨_, AList.lookup_insert _, hh, hb⟩

/-- An action of session `i` that leaves the log alone: pages it owned it owns still, or has put on the file. -/
theorem owned_store (h : Owned s) (ht : Sound (s.store i x p))
    (hfile : ∀ n, readPage s.file n = s.committed n → readPage p.file n = s.committed n ∨ s.OwnedElsewhere i n)
    (hown : ∀ n, Owner s i n → readPage p.file n = s.committed n ∨ s.OwnedElsewhere i n ∨
      p.Holds n (s.committed n) ∧ ¬ Behind s.log x.walPos n) : Owned (s.store i x p) where
  sound := ht
  owned n := by
    have helse : s.OwnedElsewhere i n → ∃ k, Owner (s.store i x p) k n := fun ⟨k, hk, ho⟩ => ⟨k, owner_store ho hk⟩
    rcases h.owned n with hf | ⟨k, ho⟩
    · exact (hfile n hf).imp id helse
    · by_cases hk : k = i
      · subst hk
        rcases hown n ho with hf | he | ⟨hh, hb⟩
        exacts [.inl hf, .inr (helse he), .inr ⟨k, owner_self hh hb⟩]
      · exact .inr ⟨k, owner_store ho hk⟩

theorem readPage_of_evictsHeld {q : Pager} {im : Image} {held : Nat → Prop} {C : Nat → Bytes}
    (hf : Pager.Fetches p q k im) (he : Pager.EvictsHeld C held p q) (n : Nat) :
    readPage q.file n = readPage p.file n ∨ readPage q.file n = C n ∨ held n := by
  cases hc : p.cached n with
  | none => exact .inl (hf.read_kept n (.inl hc))
  | some im' =>
    cases hc' : q.cached n with
    | some _ => exact .inl (hf.read_kept n (.inr (by rw [hc']; rfl)))
    | none =>
      by_cases hd : n ∈ p.pool.dirty
      · exact .inr ((he n im' hc hc' hd).imp_left (hf.read_dirty n im' hc hc' hd).trans)
      · exact .inl (hf.read_clean n hd)

/-- A read keeps what the session owns in the pool, or puts it on the file. -/
theorem holds_of_evictsHeld {q : Pager} {im : Image} {held : Nat → Prop} {C : Nat → Bytes} (hp : p.WF)
    (hf : Pager.Fetches p q k im) (he : Pager.EvictsHeld C held p q) (hn : p.Holds n (C n)) :
    readPage q.file n = C n ∨ held n ∨ q.Holds n (C n) := by
  cases hc' : q.cached n with
  | some _ => exact .inr (.inr (hf.holds hp hn (by rw [hc']; rfl)))
  | none =>
    obtain ⟨im', him'⟩ := Option.isSome_iff_exists.1 (hp.dirty_cached n hn.1)
    rcases he n im' him' hc' hn.1 with hC | hheld
    · exact .inl ((hf.read_dirty n im' him' hc' hn.1).trans hC)
    · exact .inr (.inl hheld)

theorem owner_iff (hx : s.sess.lookup i = some x) :
    Owner s i n ↔ (s.pagerOf x).Holds n (s.committed n) ∧ ¬ Behind s.log x.walPos n := by
  constructor
  · rintro ⟨y, hy, h⟩
    obtain rfl : x = y := Option.some.inj (hx.symm.trans hy)
    exact h
  · exact fun h => ⟨x, hx, h⟩

theorem owned_get {m : Nat} (h : Owned s) (hok : KeepsLast s (.get i m)) (ht : s.get i m = some t) : Owned t := by
  have hsound := sound_step h.sound (a := .get i m) trivial ht
  obtain ⟨x, im, p, hx, hg, rfl⟩ := get_cases ht
  obtain ⟨unread, htr⟩ := h.sound.tracks i x hx
  have hf := Pager.fetches_get (htr.pager s) hg
  have he := (hok x hx im p hg).1
  refine owned_store h hsound (fun n hn => ?_) fun n hn => ?_
  · rcases readPage_of_evictsHeld hf he n with hr | hr
    exacts [.inl (hr.trans hn), hr]
  · obtain ⟨hh, hb⟩ := (owner_iff hx).1 hn
    rcases holds_of_evictsHeld (htr.pager s) hf he hh with hr | hr | hr
    exacts [.inl hr, .inr (.inl hr), .inr (.inr ⟨hr, hb⟩)]

theorem owned_refresh {reads : List (List Nat)} (h : Owned s) (hok : KeepsLast s (.refresh i reads))
    (ht : s.refresh i reads = some t) : Owned t := by
  have hsound := sound_refresh h.sound ht
  obtain ⟨x, unread, hx, htr, ⟨-, rfl⟩ | ⟨-, -, e, -, rfl⟩ | ⟨hin, r, hr, hread, rfl⟩⟩ := refresh_cases h.sound ht
  · exact ⟨hsound, h.owned⟩
  · exact ⟨hsound, h.owned⟩
  obtain ⟨adopted, unread', rfl, hpos, ⟨hwf, hnone, hfile, hown⟩, -⟩ := Pager.adoptAll_induct
    (P := fun p unread => p.WF ∧ p.touched = none ∧
      (∀ n, readPage s.file n = s.committed n → readPage p.file n = s.committed n ∨ s.OwnedElsewhere i n) ∧
      ∀ n, Owner s i n → readPage p.file n = s.committed n ∨ s.OwnedElsewhere i n ∨
        p.Holds n (s.committed n) ∧ n ∉ (Batch.images unread).map Prod.fst)
    (fun p p' m im unread hp hg he => by
      obtain ⟨hwf, hnone, hfile, hown⟩ := hp
      have hf := Pager.fetches_get hwf hg
      have hkeep : ∀ n, readPage p.file n = s.committed n →
          readPage p'.file n = s.committed n ∨ s.OwnedElsewhere i n := fun n hn =>
        (readPage_of_evictsHeld hf he n).elim (fun hr => .inl (hr.trans hn)) id
      refine ⟨hf.wf hwf, hf.touched_eq.trans hnone, fun n hn => (hfile n hn).elim (hkeep n) .inr, fun n hn => ?_⟩
      rcases hown n hn with ho | ho | ⟨ho, hb⟩
      · exact (hkeep n ho).imp_right .inl
      · exact .inr (.inl ho)
      · rcases holds_of_evictsHeld hwf hf he ho with hr | hr | hr
        exacts [.inl hr, .inr (.inl hr), .inr (.inr ⟨hr, hb⟩)])
    (fun p b unread hp => by
      obtain ⟨hwf, hnone, hfile, hown⟩ := hp
      have ha := Pager.adopts_adopt p b.pages b.numPages
      refine ⟨ha.wf hwf hnone b.page_length, ha.touched_eq.trans hnone, by rw [ha.file_eq]; exact hfile, fun n hn => ?_⟩
      rw [ha.file_eq]
      refine (hown n hn).imp_right (Or.imp_right fun ⟨ho, hb⟩ => ?_)
      rw [Batch.images_cons, List.map_append, List.mem_append, not_or] at hb
      exact ⟨ha.holds ho hb.1, hb.2⟩)
    (hok x hx _ hread) ⟨htr.pager s, htr.touched_eq_none hin, fun _ => .inl, fun n hn =>
      .inr (.inr (((owner_iff hx).1 hn).imp_right (behind_iff htr.position n).not.1))⟩
  have h' := htr.advance hwf hnone
  rw [← hpos, ← hr, ← hin] at h'
  rw [← hr] at hwf hnone hfile hown
  have := owned_store h (sound_store h.sound ⟨unread', h'⟩) hfile fun n hn =>
    (hown n hn).imp_right (Or.imp_right (And.imp_right (behind_iff h'.position n).not.2))
  exact ⟨hsound, this.owned⟩

theorem owned_begin (h : Owned s) (ht : s.begin i = some t) : Owned t := by
  have hsound := sound_step h.sound (a := .begin i) trivial ht
  obtain ⟨x, hx, hin, hnone, rfl⟩ := begin_cases ht
  obtain ⟨unread, htr⟩ := h.sound.tracks i x hx
  refine owned_store h hsound (fun n hn => .inl hn) fun n hn => ?_
  obtain ⟨hh, hb⟩ := (owner_iff hx).1 hn
  exact .inr (.inr ⟨Pager.holds_begin ((htr.pager s).shadow_eq_empty hnone n) hh, hb⟩)

theorem owned_writes {m : Nat} {data : Bytes} (h : Owned s) (hx : s.sess.lookup i = some x)
    (hw : Pager.Writes (s.pagerOf x) p m data) (ht : Sound (s.store i x p)) : Owned (s.store i x p) := by
  obtain ⟨unread, htr⟩ := h.sound.tracks i x hx
  refine owned_store h ht (fun n hn => .inl (by rw [hw.file_eq]; exact hn)) fun n hn => ?_
  obtain ⟨hh, hb⟩ := (owner_iff hx).1 hn
  exact .inr (.inr ⟨hw.holds (htr.pager s) hh, hb⟩)

/-- Committing pages makes the session their owner; the other pages are owned as before. -/
theorem owned_commit (h : Owned s) (ht : s.commit i = some t) : Owned t := by
  have hsound := sound_commit h.sound ht
  obtain ⟨x, hx, hin, hcase⟩ := commit_cases h.sound ht
  obtain ⟨unread, htr⟩ := h.sound.tracks i x hx
  -- an untouched page is held as it was before the transaction
  have hself : ∀ n, n ∉ x.mem.touched.getD [] → (s.pagerOf x).Holds n (s.committed n) →
      Pager.Holds { s.pagerOf x with touched := none, shadow := ∅ } n (s.committed n) := by
    intro n hn hh
    have := Pager.holds_commit (htr.pager s) hh.1
    rwa [← base_eq_content_of_notMem htr hn, show (s.pagerOf x).base n = s.committed n from hh.2 s.file] at this
  rcases hcase with ⟨hempty, rfl⟩ | ⟨b, hb, -, -, heq⟩
  · refine owned_store h hsound (fun n hn => .inl hn) fun n hn => ?_
    obtain ⟨hh, hbh⟩ := (owner_iff hx).1 hn
    exact .inr (.inr ⟨hself n (by rw [hempty]; exact List.not_mem_nil) hh, hbh⟩)
  · have hcommitted : ∀ n, t.committed n = if n ∈ x.mem.touched.getD [] then (s.pagerOf x).content n else s.committed n :=
      committed_commit hb (by rw [heq]) (by rw [heq]; rfl)
    refine ⟨hsound, fun n => ?_⟩
    subst heq
    have hend : ∀ n, ¬ Behind (s.log ++ b.blob) (s.log ++ b.blob).length n := not_behind List.drop_length
    by_cases hn : n ∈ x.mem.touched.getD []
    · refine .inr ⟨i, _, AList.lookup_insert _, ?_, hend n⟩
      rw [hcommitted, if_pos hn]
      exact Pager.holds_commit (htr.pager s) ((htr.pager s).touched_dirty n hn)
    · rw [hcommitted, if_neg hn]
      refine (h.owned n).imp_right fun ⟨k, y, hy, hh, hbh⟩ => ⟨k, ?_⟩
      by_cases hk : k = i
      · subst hk
        obtain rfl : x = y := Option.some.inj (hx.symm.trans hy)
        refine ⟨_, AList.lookup_insert _, ?_, hend n⟩
        rw [hcommitted, if_neg hn]
        exact hself n hn hh
      · refine ⟨y, (AList.lookup_insert_ne hk).trans hy, by rw [hcommitted, if_neg hn]; exact hh, ?_⟩
        obtain ⟨unread', htr'⟩ := h.sound.tracks k y hy
        have hkeys : b.pages.map Prod.fst = (s.pagerOf x).touchedPages := by rw [hb, List.map_map]; exact List.map_id _
        rw [behind_iff (htr'.append b).position, Batch.images_append, List.map_append, List.mem_append, not_or]
        refine ⟨(behind_iff htr'.position n).not.1 hbh, ?_⟩
        rw [Batch.images_cons, Batch.images_nil, List.append_nil, hkeys, Pager.touchedPages, List.mem_insertionSort]
        exact hn

theorem owned_openFiles {cacheSize : Nat} (h : Owned s) (hok : KeepsLast s (.open i cacheSize))
    (ht : s.openFiles i cacheSize = some t) : Owned t := by
  have hsound := sound_openFiles h.sound hok ht
  obtain ⟨hc, pre, pend, log, hnew, hhist, hpend, hpend', -, hlog, rfl⟩ := openFiles_cases h.sound hok ht
  refine ⟨hsound, fun n => ?_⟩
  show readPage (Batch.applyAll s.file pend) n = s.committed n ∨ _
  rw [readPage_applyAll]
  by_cases hn : n ∈ (Batch.images pend).map Prod.fst
  · exact .inl (committed_of_suffix hhist hn _)
  · rw [imageAfter_of_notMem hn]
    refine (h.owned n).imp_right fun ⟨k, y, hy, hh, hb⟩ => ⟨k, ?_⟩
    -- with another session open the log stays as it is
    rcases hlog with rfl | hk
    · have hki : k ≠ i := by
        rintro rfl
        rw [hnew] at hy
        cases hy
      exact ⟨y, (AList.lookup_insert_ne hki).trans hy, hh, hb⟩
    · rw [lookup_of_keys hk] at hy
      cases hy

theorem readPage_checkpoint (h : Owned s) (hok : KeepsLast s (.checkpoint i)) (hx : s.sess.lookup i = some x)
    (halone : s.alone i = true) (hf : (s.pagerOf x).flush = .ok p) (n : Nat) : readPage p.file n = s.committed n := by
  obtain ⟨unread, htr⟩ := h.sound.tracks i x hx
  have hnone : ¬ s.OwnedElsewhere i n := fun ⟨k, hk, y, hy, _⟩ => by
    rw [(alone_iff s i).1 halone k hk] at hy
    cases hy
  rw [Pager.readPage_flush (htr.pager s) hf]
  split
  · exact (hok x hx n ‹_›).resolve_right hnone
  · refine (h.owned n).resolve_right fun ⟨k, ho⟩ => ?_
    by_cases hk : k = i
    · subst hk
      exact ‹n ∉ (s.pagerOf x).pool.dirty› ((owner_iff hx).1 ho).1.1
    · exact hnone ⟨k, hk, ho⟩

theorem owned_checkpoint (h : Owned s) (hok : KeepsLast s (.checkpoint i)) (ht : s.checkpoint i = some t) : Owned t := by
  have hsound := sound_checkpoint h.sound ht
  obtain ⟨x, p, hx, -, halone, hf, rfl⟩ := checkpoint_cases ht
  exact ⟨hsound, fun n => .inl (readPage_checkpoint h hok hx halone hf n)⟩

theorem owned_drop (h : Owned s) (hx : s.sess.lookup i = some x)
    (hok : ∀ n ∈ x.mem.pool.dirty, (s.pagerOf x).content n = s.committed n ∨ s.OwnedElsewhere i n)
    (ht : s.drop i = some t) : Owned t := by
  have hsound := sound_drop h.sound ht
  obtain ⟨x', p, hx', hf, rfl⟩ := drop_cases ht
  obtain rfl : x = x' := Option.some.inj (hx.symm.trans hx')
  obtain ⟨unread, htr⟩ := h.sound.tracks i x hx
  have helse : ∀ n, s.OwnedElsewhere i n →
      ∃ k, Owner { s with file := p.file, sess := s.sess.erase i, refreshed := none } k n :=
    fun n ⟨k, hk, y, hy, ho⟩ => ⟨k, y, (AList.lookup_erase_ne hk).trans hy, ho⟩
  refine ⟨hsound, fun n => ?_⟩
  show readPage p.file n = s.committed n ∨ _
  rw [Pager.readPage_flush (htr.pager s) hf]
  split
  · exact (hok n ‹_›).imp_right (helse n)
  · rename_i hd
    refine (h.owned n).imp_right fun ⟨k, ho⟩ => helse n ⟨k, ?_, ho⟩
    rintro rfl
    exact hd ((owner_iff hx).1 ho).1.1

theorem owned_close {checkpoint : Bool} (h : Owned s) (hok : KeepsLast s (.close i checkpoint))
    (hone : OneAtATime s (.close i checkpoint)) (ht : s.close i checkpoint = some t) : Owned t := by
  obtain ⟨x, s1, s2, hx, h1, h2, h3⟩ := close_cases ht
  obtain rfl : s1 = s := by
    rcases h1 with ⟨hin, -⟩ | ⟨-, rfl⟩
    · rw [hone x hx] at hin
      cases hin
    · rfl
  rcases h2 with ⟨-, h2⟩ | ⟨-, rfl⟩
  · have hs2 := owned_checkpoint h hok h2
    obtain ⟨x', p, hx', -, -, hf, rfl⟩ := checkpoint_cases h2
    obtain ⟨unread, htr⟩ := h.sound.tracks i x' hx'
    -- nothing is dirty after the checkpoint
    refine owned_drop hs2 (AList.lookup_insert _) (fun n hn => ?_) h3
    change n ∈ p.pool.dirty at hn
    rw [(Pager.flush_fields (htr.pager _) hf).2.1] at hn
    cases hn
  · exact owned_drop h hx (hok x hx) h3

theorem owned_step (h : Owned s) {a : Action} (hok : OneAtATime s a ∧ KeepsLast s a) (ht : s.step a = some t) :
    Owned t := by
  obtain ⟨hone, hok⟩ := hok
  cases a with
  | «open» i cacheSize =>
    obtain ⟨u, hu, ht⟩ := openSession_cases ht
    exact owned_get (owned_openFiles h hok hu) (fun _ hx _ _ _ =>
      ⟨fun m _ hm _ => absurd ((cached_openFiles hu hx m).symm.trans hm) nofun, trivial⟩) ht
  | refresh i reads => exact owned_refresh h hok ht
  | get i n => exact owned_get h hok ht
  | begin i => exact owned_begin h ht
  | write i n data =>
    have hsound := sound_step h.sound (a := .write i n data) trivial ht
    obtain ⟨x, p, hx, hin, hw, rfl⟩ := write_cases ht
    obtain ⟨unread, htr⟩ := h.sound.tracks i x hx
    exact owned_writes h hx (Pager.writes_write (htr.pager s) (htr.touched_isSome hin) hw) hsound
  | allocate i =>
    have hsound := sound_step h.sound (a := .allocate i) trivial ht
    obtain ⟨x, hx, hin, rfl⟩ := allocate_cases ht
    obtain ⟨unread, htr⟩ := h.sound.tracks i x hx
    exact owned_writes h hx (Pager.writes_allocate (htr.pager s) (htr.touched_isSome hin)) hsound
  | commit i => exact owned_commit h ht
  | rollback i => exact hone.elim
  | checkpoint i => exact owned_checkpoint h hok ht
  | close i checkpoint => exact owned_close h hok hone ht

theorem owned_init (file : Bytes) {log : Bytes} (h : log.length ≤ Wal.header.length) : Owned (init file log) :=
  ⟨sound_init file h, fun _ => .inl rfl⟩

theorem readPage_of_owned (h : Owned s) (hclosed : s.sess.keys = []) (n : Nat) : readPage s.file n = s.committed n := by
  refine (h.owned n).resolve_right fun ⟨k, y, hy, _⟩ => ?_
  rw [lookup_of_keys hclosed] at hy
  cases hy

theorem KeepsLast.of_plain {a : Action} (h : Plain s a) : OneAtATime s a ∧ KeepsLast s a := by
  cases a with
  | «open» i cacheSize => exact ⟨trivial, .inl h⟩
  | refresh i reads =>
    obtain rfl : reads = [] := h
    exact ⟨trivial, fun x _ batches _ => Pager.adoptsOk_nil batches _⟩
  | begin i => exact ⟨h, trivial⟩
  | commit | write => exact ⟨trivial, trivial⟩
  | get | allocate | rollback | checkpoint | close => exact h.elim

end System

namespace Disk
open LeafDb.System (Action Sound OneAtATime KeepsLast Owned)

/-- When all sessions have closed, in whatever order, the data file has the last committed image of every page. -/
theorem readPage_of_closed {file log : Bytes} (hlog : log.length ≤ Wal.header.length) {es : List Event} {d : Disk}
    (hrun : Run step (Meets fun s a => OneAtATime s a ∧ KeepsLast s a) (init file log) es d)
    (hclosed : d.sys.sess.keys = []) (n : Nat) : readPage d.sys.file n = d.sys.committed n := by
  obtain ⟨howned, hsettled⟩ : Owned d.direct ∧ Settled d :=
    hrun.invariant (P := fun d => Owned d.direct ∧ Settled d)
      (fun d e d' h hok ht => ⟨hok.keeps (fun _ _ _ h hok ht => System.owned_step h hok ht) h.1.sound h.1 ht,
        settled_event h.1.sound h.2 hok.1 ht⟩)
      ⟨System.owned_init file hlog, settled_init file log⟩
  rw [hsettled.readPage_eq hclosed]
  exact System.readPage_of_owned howned hclosed n

/-! ### Session 0 commits page 1, and session 1 adopts it -/

/-- Both sessions are open and idle, and session 0 has page 1 dirty. -/
theorem exists_adopted : ∃ s x y, Run step (Meets fun s a => OneAtATime s a ∧ KeepsLast s a) (init [] [])
      (List.map .act [.open 0 4, .open 1 4, .refresh 0 [], .begin 0, .write 0 1 [1], .commit 0, .refresh 1 []]) (still s) ∧
    (∀ e ∈ (List.map Event.act [.open 0 4, .open 1 4, .refresh 0 [], .begin 0, .write 0 1 [1], .commit 0, .refresh 1 []]),
      ∀ a, e = .act a → a.actor = 0 ∨ a.actor = 1) ∧
    Sound s ∧ s.refreshed = some 1 ∧ s.sess.lookup 0 = some x ∧ s.sess.lookup 1 = some y ∧
    s.committed 1 = padTo pageSize [1] ∧ (∀ k z, s.sess.lookup k = some z → z.inTxn = false) ∧
    (∀ m, m ∈ x.mem.pool.dirty ↔ m = 1) ∧ (∀ u : System, (u.pagerOf x).content 1 = padTo pageSize [1]) ∧
    y.mem.pool.dirty = [] ∧ y.mem.numPages = 2 ∧ ∀ k, k ≠ 0 → k ≠ 1 → s.sess.lookup k = none := by
  obtain ⟨s, x, y, hrun, hi, -, hx, hy, hview, hcomm, hxin, hyin, hxdirty, hxcontent, -, -, -, hnone⟩ :=
    System.exists_refreshed [] 3 (by decide)
  have hs : Sound s := (hrun.invariant (P := Owned)
    (fun _ _ _ h hok ht => System.owned_step h (KeepsLast.of_plain hok) ht) (System.owned_init [] (Nat.zero_le _))).sound
  refine ⟨s, x, y, ?_, ?_, hs, hi, hx, hy, (hcomm 1).trans (if_pos rfl), fun k z hz => ?_, hxdirty,
    fun u => ?_, ?_, congrArg (fun p : Pager => p.numPages) hview, hnone⟩
  · exact run_still (fun s a => OneAtATime s a ∧ KeepsLast s a) (System.sound_init [] (Nat.zero_le _))
      (fun _ a h => by cases a <;> first | exact h.2 | trivial) (fun _ _ _ _ h _ => meets_still h)
      (hrun.mono fun _ _ h => ⟨KeepsLast.of_plain h, unbuffered_of_plain h⟩)
  · simp [Action.actor]
  · by_cases h0 : k = 0
    · subst h0
      cases hx.symm.trans hz
      exact hxin
    by_cases h1 : k = 1
    · subst h1
      cases hy.symm.trans hz
      exact hyin
    · rw [hnone k h0 h1] at hz
      cases hz
  · obtain ⟨unread, htr⟩ := hs.tracks 0 x hx
    obtain ⟨im, him⟩ := Option.isSome_iff_exists.1 ((htr.pager s).dirty_cached 1 ((hxdirty 1).2 rfl))
    rw [← hxcontent, Pager.content_of_cached him]
    exact Pager.content_of_cached (p := u.pagerOf x) him
  · exact congrArg (fun p : Pager => p.pool.dirty) hview

/-- Session 1 and then session 0 closes. -/
theorem readPage_of_closed_marked : ∃ d, Run step (Meets fun s a => OneAtATime s a ∧ KeepsLast s a) (init [] [])
      (List.map .act ([.open 0 4, .open 1 4, .refresh 0 [], .begin 0, .write 0 1 [1], .commit 0, .refresh 1 []] ++
        [.close 1 true, .close 0 true])) d ∧
    d.sys.sess.keys = [] ∧ readPage d.sys.file 1 = d.sys.committed 1 ∧ d.sys.committed 1 = padTo pageSize [1] := by
  obtain ⟨s, x, y, hrun, -, hs, -, hx, hy, hcomm, hidle, hxdirty, hxcontent, hydirty, -, hnone⟩ := exists_adopted
  obtain ⟨s1, h1, hsess, hcomm1, -⟩ := System.exists_close hs hx hy (hidle 1 y hy) (by decide)
  have hs1 : Sound s1 := System.sound_step hs (a := .close 1 true) trivial h1
  have hok1 : OneAtATime s (.close 1 true) ∧ KeepsLast s (.close 1 true) := by
    constructor <;> intro z hz <;> obtain rfl : y = z := Option.some.inj (hy.symm.trans hz)
    · exact hidle 1 y hy
    · intro n hn
      rw [hydirty] at hn
      cases hn
  have hx1 : s1.sess.lookup 0 = some x := by rw [hsess, AList.lookup_erase_ne (by decide)]; exact hx
  have halone : ∀ k, k ≠ 0 → s1.sess.lookup k = none := by
    intro k hk
    rw [hsess]
    by_cases hk1 : k = 1
    · subst hk1; exact AList.lookup_erase _ _
    · exact (AList.lookup_erase_ne hk1).trans (hnone k hk hk1)
  obtain ⟨t, ht, hkeys, hcommt, -⟩ := System.exists_close_last hs1 hx1 (hidle 0 x hx) halone
  have hok2 : OneAtATime s1 (.close 0 true) ∧ KeepsLast s1 (.close 0 true) := by
    constructor <;> intro z hz <;> obtain rfl : x = z := Option.some.inj (hx1.symm.trans hz)
    · exact hidle 0 x hx
    · intro n hn
      rw [hxdirty] at hn
      subst hn
      left
      rw [hcomm1, hcomm, hxcontent]
  have hrun2 := hrun.append (.cons (meets_still hok1) (step_still (a := .close 1 true) hs (fun hb => by cases hb) h1)
    (.single (meets_still hok2) (step_still (a := .close 0 true) hs1 (fun hb => by cases hb) ht)))
  exact ⟨_, hrun2, hkeys, readPage_of_closed (Nat.zero_le _) hrun2 hkeys 1, by
    show t.committed 1 = _
    rw [hcommt, hcomm1, hcomm]⟩

/-- A session that closes last writes its old image of a page over the one the other session committed later. -/
theorem closed_fails :
    ¬ ∀ (file log : Bytes) (es : List Event) (d : Disk) (n : Nat), log.length ≤ Wal.header.length →
      Run step (fun d e => ∀ a, e = .act a → (a.actor = 0 ∨ a.actor = 1) ∧ OneAtATime d.direct a) (init file log) es d →
      d.sys.sess.keys = [] → readPage d.sys.file n = d.sys.committed n := by
  intro h
  obtain ⟨s, x, y, hrun, hactor, hs, hi, hx, hy, -, hidle, hxdirty, hxcontent, -, hnum, hnone⟩ := exists_adopted
  obtain ⟨z, hz, -, hpos⟩ := hs.current 1 hi
  obtain rfl : y = z := Option.some.inj (hy.symm.trans hz)
  obtain ⟨unread, htr⟩ := hs.tracks 1 y hy
  have hypos : y.walPos = s.log.length := Nat.le_antisymm htr.pos_le (List.drop_eq_nil_iff.1 hpos)
  -- session 1 commits the page again
  let ok : System → Action → Prop := fun s a => OneAtATime s a ∧ (a = .begin 1 ∨ a = .write 1 1 [2] ∨ a = .commit 1)
  obtain ⟨t, w, hu, hrun'⟩ := System.exists_updates 1 [2] hs hy (hidle 1 y hy) hypos (by decide)
    (by rw [hnum]; decide)
  have hrun' := hrun' ok ⟨⟨hi, hidle⟩, .inl rfl⟩ (fun _ => ⟨trivial, .inr (.inl rfl)⟩) fun _ _ => ⟨trivial, .inr (.inr rfl)⟩
  have ht : Sound t := hrun'.invariant (P := Sound) (fun s a t h hok ht => System.sound_step h
    (by rcases hok.2 with rfl | rfl | rfl <;> trivial) ht) hs
  have hx1 : t.sess.lookup 0 = some x := (hu.others 0 (by decide)).trans hx
  -- session 1 closes, and then session 0
  obtain ⟨s1, h1, hsess, hcomm1, -⟩ := System.exists_close ht hx1 hu.lookup hu.inTxn (by decide)
  have hs1 : Sound s1 := System.sound_step ht (a := .close 1 true) trivial h1
  have hx2 : s1.sess.lookup 0 = some x := by rw [hsess, AList.lookup_erase_ne (by decide)]; exact hx1
  have halone : ∀ k, k ≠ 0 → s1.sess.lookup k = none := by
    intro k hk
    rw [hsess]
    by_cases hk1 : k = 1
    · subst hk1; exact AList.lookup_erase _ _
    · exact (AList.lookup_erase_ne hk1).trans ((hu.others k hk1).trans (hnone k hk hk1))
  obtain ⟨s2, h2, hkeys, hcomm2, hfile⟩ := System.exists_close_last hs1 hx2 (hidle 0 x hx) halone
  let okDisk : Disk → Event → Prop := fun d e => ∀ a, e = .act a → (a.actor = 0 ∨ a.actor = 1) ∧ OneAtATime d.direct a
  have hclose1 : okDisk (still t) (.act (.close 1 true)) := by
    rintro a ha
    cases ha
    refine ⟨.inr rfl, fun z hz => ?_⟩
    cases hu.lookup.symm.trans hz
    exact hu.inTxn
  have hclose0 : okDisk (still s1) (.act (.close 0 true)) := by
    rintro a ha
    cases ha
    refine ⟨.inl rfl, fun z hz => ?_⟩
    cases hx2.symm.trans hz
    exact hidle 0 x hx
  have hrun0 : Run step okDisk (init [] []) _ (still s) :=
    (hrun.and_forall_mem hactor).mono fun d e h a ha => ⟨h.1 a ha, (h.2.2 a ha).1⟩
  have hrun1 : Run step okDisk (still s) _ (still t) :=
    run_still ok hs (fun s a h => by rcases h.2 with rfl | rfl | rfl <;> trivial)
      (fun s a t _ h _ b hb => by
        cases hb
        exact ⟨.inr (by rcases h.2 with rfl | rfl | rfl <;> rfl), h.1⟩)
      (hrun'.mono fun s a h => ⟨h, fun _ => by rcases h.2 with rfl | rfl | rfl <;> rfl⟩)
  have := h [] [] _ _ 1 (Nat.zero_le _) ((hrun0.append hrun1).append
    (.cons hclose1 (step_still (a := .close 1 true) ht (fun hb => by cases hb) h1)
      (.single hclose0 (step_still (a := .close 0 true) hs1 (fun hb => by cases hb) h2)))) hkeys
  change readPage s2.file 1 = s2.committed 1 at this
  rw [hfile 1 ((hxdirty 1).2 rfl), hxcontent, hcomm2, hcomm1, hu.committed, if_pos rfl] at this
  have h0 := System.getD_marked
  rw [this, getD_padTo] at h0
  cases h0

end Disk

end LeafDb
