import LeafDb.Freshness

/-!
# Page numbers in use

Every session counts the pages by itself: `num_pages` comes from the length of the data file, from the batches
it adopts and from its own writes. `Counted` says that the count of a session is beyond every page in use that
is not in a batch it has yet to adopt, so that it hands out no page a second time. `CountOk` is what that takes
of a checkpoint: the file gets every page of the log it resets, even one that is all zero.
-/

namespace LeafDb

namespace Pager
variable {p p' : Pager}

/-! ### The length of the data file -/

theorem length_le_evictOldest (h : p.WF) : p.file.length ≤ p.evictOldest.file.length := by
  unfold evictOldest
  split
  · exact Nat.le_refl _
  · rename_i old data hl
    split
    · have hmem : p.cached old = some data := AList.mem_lookup_iff.2 (List.mem_of_getLast? hl)
      show _ ≤ (writePage p.file old data.bytes).length
      rw [length_writePage _ _ (h.cached_length old data hmem)]
      exact Nat.le_max_left _ _
    · exact Nat.le_refl _

theorem length_le_evictIfFull (h : p.WF) : p.file.length ≤ p.evictIfFull.file.length := by
  have hloop : ∀ fuel (q : Pager), q.WF → q.touched = none → q.file.length ≤ (evictLoop fuel q).file.length := by
    intro fuel
    induction fuel with
    | zero => exact fun q _ _ => Nat.le_refl _
    | succ fuel ih =>
      intro q hq ht
      unfold evictLoop
      split
      · exact Nat.le_refl _
      · have he := evicts_evictOldest hq.live
        exact (length_le_evictOldest hq).trans (ih _ (he.wf hq ht) (he.touched_eq.trans ht))
  unfold evictIfFull
  split
  · exact Nat.le_refl _
  · exact hloop _ p h (by simpa using ‹¬ p.touched.isSome = true›)

theorem length_le_get (h : p.WF) {n : Nat} {im : Image} (hg : p.get n = .ok (im, p')) :
    p.file.length ≤ p'.file.length := by
  unfold get at hg
  split at hg
  · cases hg
  split at hg
  · cases hg
    exact Nat.le_refl _
  · cases hg
    exact length_le_evictIfFull (wf_newImage h (readPage p.file n))

theorem length_le_flush (h : p.WF) (hf : p.flush = .ok p') :
    p.file.length ≤ p'.file.length ∧ ∀ n ∈ p.pool.dirty, (n + 1) * pageSize ≤ p'.file.length := by
  have himages := @poolImages_eq_content p (p.pool.dirty.insertionSort (· ≤ ·)) fun n hn =>
    h.dirty_cached n (by simpa using hn)
  unfold flush at hf
  rw [himages] at hf
  cases hf
  have hlen : ∀ e ∈ (p.pool.dirty.insertionSort (· ≤ ·)).map (fun n => (n, p.content n)), e.2.length = pageSize := by
    intro e he
    obtain ⟨n, -, rfl⟩ := List.mem_map.1 he
    exact h.length_content n
  obtain ⟨hle, hmem⟩ := length_le_writePages hlen p.file
  exact ⟨hle, fun n hn => hmem (n, p.content n) (List.mem_map.2 ⟨n, by simpa using hn, rfl⟩)⟩

theorem le_numPages_adopt (p : Pager) (images : List (Nat × Bytes)) (numPages : Nat) :
    numPages ≤ (p.adopt images numPages).numPages := by
  unfold adopt
  simp only
  split
  · exact Nat.le_refl _
  · omega

end Pager

namespace System

/-- Page `n` was committed once, or the data file of the beginning has it. -/
def Stored (s : System) (n : Nat) : Prop := n ∈ s.history.flatten.map Prod.fst ∨ (n + 1) * pageSize ≤ s.orig.length

structure Counted (s : System) (used : List Nat) : Prop where
  file : ∀ n ∈ used, (n + 1) * pageSize ≤ s.file.length ∨ Behind s.log Wal.header.length n
  numPages : ∀ i x, s.sess.lookup i = some x → ∀ n ∈ used, n < x.mem.numPages ∨ Behind s.log x.walPos n
  batches : ∀ i x, s.sess.lookup i = some x → ∀ bs, s.log.drop x.walPos = blobs bs → ∀ b ∈ bs, ∀ e ∈ b.pages,
    e.1 < b.numPages

/-- The file has, or gets by a flush of `p`, every page of the log. -/
def Covers (s : System) (p : Pager) : Prop :=
  ∀ n, Behind s.log Wal.header.length n → n ∈ p.pool.dirty ∨ (n + 1) * pageSize ≤ s.file.length

def CountOk (s : System) : Action → Prop
  | .checkpoint i => ∀ x, s.sess.lookup i = some x → Covers s (s.pagerOf x) ∧
      ∀ n, Behind s.log x.walPos n → n < x.mem.numPages
  | .close i checkpoint => ∀ x, s.sess.lookup i = some x → checkpoint = true ∧ s.alone i = true →
      Covers s (s.closing x)
  | _ => True

variable {s t : System} {i : Nat} {x y : Session} {p : Pager} {used : List Nat}

theorem counted_store (h : Counted s used) (hx : s.sess.lookup i = some x) (hfile : s.file.length ≤ p.file.length)
    (hnum : x.mem.numPages ≤ p.numPages) (hpos : y.walPos = x.walPos) : Counted (s.store i y p) used where
  file n hn := (h.file n hn).imp_left fun hle => hle.trans hfile
  numPages k z hz n hn := by
    rw [lookup_store] at hz
    split at hz
    · cases hz
      have := h.numPages i x hx n hn
      rw [← hpos] at this
      exact this.imp_left fun hlt => hlt.trans_le hnum
    · exact h.numPages k z hz n hn
  batches k z hz := by
    rw [lookup_store] at hz
    split at hz
    · cases hz
      show ∀ bs, s.log.drop y.walPos = _ → _
      rw [hpos]
      exact h.batches i x hx
    · exact h.batches k z hz

theorem counted_get {n : Nat} (hs : Sound s) (h : Counted s used) (ht : s.get i n = some t) : Counted t used := by
  obtain ⟨x, im, p, hx, hg, rfl⟩ := get_cases ht
  obtain ⟨unread, htr⟩ := hs.tracks i x hx
  have hf := Pager.fetches_get (htr.pager s) hg
  exact counted_store h hx (Pager.length_le_get (htr.pager s) hg) hf.numPages_eq.ge rfl

theorem counted_openFiles {cacheSize : Nat} (hs : Sound s) (h : Counted s used) (hok : OpenAlone s (.open i cacheSize))
    (ht : s.openFiles i cacheSize = some t) : Counted t used := by
  obtain ⟨hc, pre, pend, log, -, -, hpend, hempty, hlen, hlog, rfl⟩ := openFiles_cases hs hok ht
  obtain ⟨hle, hmem⟩ := Batch.length_le_applyAll s.file pend
  have hfile : ∀ n ∈ used, (n + 1) * pageSize ≤ (Batch.applyAll s.file pend).length := by
    intro n hn
    rcases h.file n hn with h | h
    · exact h.trans hle
    · exact hmem n ((behind_iff hpend n).1 h)
  refine ⟨fun n hn => .inl (hfile n hn), fun k z hz n hn => ?_, fun k z hz => ?_⟩
  all_goals
    change (s.store i _ _).sess.lookup k = some z at hz
    rw [lookup_store] at hz
    split at hz
  · cases hz
    have := (Nat.le_div_iff_mul_le (by decide)).2 (hfile n hn)
    exact .inl (Nat.lt_of_lt_of_le this (Nat.le_max_right _ _))
  · rcases hlog with rfl | hk
    · exact h.numPages k z hz n hn
    · rw [lookup_of_keys hk] at hz
      cases hz
  · cases hz
    intro bs hbs
    have : log.drop log.length = [] := List.drop_length
    rw [blobs_eq_nil (hbs.symm.trans this)]
    simp
  · rcases hlog with rfl | hk
    · exact h.batches k z hz
    · rw [lookup_of_keys hk] at hz
      cases hz

theorem counted_refresh {reads : List (List Nat)} (hs : Sound s) (h : Counted s used)
    (ht : s.refresh i reads = some t) : Counted t used := by
  obtain ⟨x, unread, hx, htr, ⟨-, rfl⟩ | ⟨-, -, e, -, rfl⟩ | ⟨hin, r, hr, -, rfl⟩⟩ := refresh_cases hs ht
  · exact ⟨h.file, h.numPages, h.batches⟩
  · exact ⟨h.file, h.numPages, h.batches⟩
  obtain ⟨adopted, unread', rfl, hpos, ⟨hwf, hnone, hfile, hnum, hbatches⟩, -⟩ := Pager.adoptAll_induct
    (P := fun p unread => p.WF ∧ p.touched = none ∧ s.file.length ≤ p.file.length ∧
      (∀ n ∈ used, n < p.numPages ∨ n ∈ (Batch.images unread).map Prod.fst) ∧
      ∀ b ∈ unread, ∀ e ∈ b.pages, e.1 < b.numPages)
    (fun p p' n im unread hp hg _ => by
      obtain ⟨hwf, hnone, hfile, hnum, hbatches⟩ := hp
      have hf := Pager.fetches_get hwf hg
      refine ⟨hf.wf hwf, hf.touched_eq.trans hnone, hfile.trans (Pager.length_le_get hwf hg), ?_, hbatches⟩
      rw [hf.numPages_eq]
      exact hnum)
    (fun p b unread hp => by
      obtain ⟨hwf, hnone, hfile, hnum, hbatches⟩ := hp
      have ha := Pager.adopts_adopt p b.pages b.numPages
      refine ⟨ha.wf hwf hnone b.page_length, ha.touched_eq.trans hnone, by rw [ha.file_eq]; exact hfile, fun n hn => ?_,
        fun b' hb' => hbatches b' (List.mem_cons_of_mem _ hb')⟩
      rcases hnum n hn with hlt | hm
      · exact .inl (hlt.trans_le ha.numPages_le)
      · rw [Batch.images_cons, List.map_append, List.mem_append] at hm
        refine hm.imp_left fun hm => ?_
        obtain ⟨e, he, rfl⟩ := List.mem_map.1 hm
        exact (hbatches b List.mem_cons_self e he).trans_le (Pager.le_numPages_adopt p b.pages b.numPages))
    (Pager.adoptsOk_of_forall (E := fun _ _ => True) (fun _ _ => trivial) _ reads (s.pagerOf x))
    ⟨htr.pager s, htr.touched_eq_none hin, Nat.le_refl _,
      fun n hn => (h.numPages i x hx n hn).imp_right (behind_iff htr.position n).1,
      h.batches i x hx _ htr.position⟩
  have h' := htr.advance hwf hnone
  rw [← hpos, ← hr] at h'
  rw [← hr] at hfile hnum
  refine ⟨fun n hn => (h.file n hn).imp_left fun hle => hle.trans hfile, fun k z hz n hn => ?_, fun k z hz => ?_⟩
  all_goals
    change (s.store i _ _).sess.lookup k = some z at hz
    rw [lookup_store] at hz
    split at hz
  · cases hz
    exact (hnum n hn).imp_right (behind_iff h'.position n).2
  · exact h.numPages k z hz n hn
  · cases hz
    intro bs hbs
    have hsame : blobs bs ++ [] = blobs unread' ++ [] := by
      rw [List.append_nil, List.append_nil, ← h'.position]
      exact hbs.symm
    rw [(Wal.blobs_inj hsame Wal.torn_nil Wal.torn_nil).1]
    exact hbatches
  · exact h.batches k z hz

/-- A commit takes the pages it wrote into use. -/
theorem counted_commit {used' : List Nat} (hs : Sound s) (h : Counted s used) (ht : s.commit i = some t)
    (hused : ∀ x, s.sess.lookup i = some x → ∀ n ∈ used', n ∈ used ∨ n ∈ x.mem.touched.getD [])
    (hpos : ∀ x, s.sess.lookup i = some x → x.mem.touched.getD [] = [] ∨ x.walPos = s.log.length) :
    Counted t used' := by
  obtain ⟨x, hx, -, ⟨hempty, rfl⟩ | ⟨b, hb, hnum, hne, rfl⟩⟩ := commit_cases hs ht
  · have hsub : ∀ n ∈ used', n ∈ used := fun n hn =>
      (hused x hx n hn).resolve_right (by rw [hempty]; exact List.not_mem_nil)
    have h' : Counted s used' := ⟨fun n hn => h.file n (hsub n hn), fun k z hz n hn => h.numPages k z hz n (hsub n hn),
      h.batches⟩
    exact counted_store (y := { x with inTxn := false }) h' hx (Nat.le_refl _) (Nat.le_refl _) rfl
  obtain ⟨unread, htr⟩ := hs.tracks i x hx
  have hpos := (hpos x hx).resolve_left hne
  have hmem : ∀ n, n ∈ b.pages.map Prod.fst ↔ n ∈ x.mem.touched.getD [] := by
    intro n
    rw [hb, List.map_map]
    exact (iff_of_eq (congrArg (n ∈ ·) (List.map_id _))).trans (List.mem_insertionSort _)
  have hin : ∀ n ∈ used', n ∈ used ∨ n ∈ b.pages.map Prod.fst := fun n hn =>
    (hused x hx n hn).imp_right (hmem n).2
  obtain ⟨pre, pend, -, hpend⟩ := hs.pending
  have hheader : Wal.header.length ≤ s.log.length := htr.header_le.trans htr.pos_le
  refine ⟨fun n hn => ?_, fun k z hz n hn => ?_, fun k z hz bs hbs => ?_⟩
  · show _ ∨ Behind (s.log ++ b.blob) _ n
    rw [behind_append hheader hpend]
    rcases hin n hn with hn | hn
    · exact (h.file n hn).imp_right .inl
    · exact .inr (.inr hn)
  · change (s.store i _ _).sess.lookup k = some z at hz
    rw [lookup_store] at hz
    split at hz
    · cases hz
      refine .inl ?_
      rcases hin n hn with hn | hn
      · exact (h.numPages i x hx n hn).resolve_right (not_behind (by rw [hpos, List.drop_length]) n)
      · exact htr.touched_lt n ((hmem n).1 hn)
    · obtain ⟨unread', htr'⟩ := hs.tracks k z hz
      show _ ∨ Behind (s.log ++ b.blob) _ n
      rw [behind_append htr'.pos_le htr'.position]
      rcases hin n hn with hn | hn
      · exact (h.numPages k z hz n hn).imp_right .inl
      · exact .inr (.inr hn)
  · change (s.store i _ _).sess.lookup k = some z at hz
    change (s.log ++ b.blob).drop z.walPos = blobs bs at hbs
    rw [lookup_store] at hz
    split at hz
    · cases hz
      rw [List.drop_length] at hbs
      rw [blobs_eq_nil hbs.symm]
      simp
    · obtain ⟨unread', htr'⟩ := hs.tracks k z hz
      rw [List.drop_append_of_le_length htr'.pos_le, htr'.position] at hbs
      have hsame : blobs bs ++ [] = blobs (unread' ++ [b]) ++ [] := by
        rw [← hbs, blobs_append, blobs_cons, blobs_nil, List.append_nil, List.append_nil, List.append_nil]
      rw [(Wal.blobs_inj hsame Wal.torn_nil Wal.torn_nil).1]
      intro b' hb' e he
      rcases List.mem_append.1 hb' with hb' | hb'
      · exact h.batches k z hz unread' htr'.position b' hb' e he
      · obtain rfl := List.mem_singleton.1 hb'
        rw [hnum]
        exact htr.touched_lt _ ((hmem e.1).1 (List.mem_map.2 ⟨e, he, rfl⟩))

/-- After a flush of a pager that covers the log, the file has every page in use. -/
theorem length_flush_of_covers (h : Counted s used) {q : Pager} (hwf : p.WF) (hfile : s.file.length ≤ p.file.length)
    (hcovers : Covers s p) (hf : p.flush = .ok q) : ∀ n ∈ used, (n + 1) * pageSize ≤ q.file.length := by
  intro n hn
  obtain ⟨hle, hdirty⟩ := Pager.length_le_flush hwf hf
  rcases h.file n hn with hl | hb
  · exact hl.trans (hfile.trans hle)
  · exact (hcovers n hb).elim (hdirty n) fun hl => hl.trans (hfile.trans hle)

theorem counted_checkpoint (hs : Sound s) (h : Counted s used) (hok : CountOk s (.checkpoint i))
    (ht : s.checkpoint i = some t) : Counted t used := by
  obtain ⟨x, p, hx, -, halone, hf, rfl⟩ := checkpoint_cases ht
  obtain ⟨unread, htr⟩ := hs.tracks i x hx
  obtain ⟨hcovers, hlt⟩ := hok x hx
  obtain ⟨-, -, hnum, -, -⟩ := Pager.flush_fields (htr.pager s) hf
  have hfile := length_flush_of_covers h (htr.pager s) (Nat.le_refl _) hcovers hf
  refine ⟨fun n hn => .inl (hfile n hn), fun k z hz n hn => ?_, fun k z hz => ?_⟩
  all_goals
    change (s.store i _ _).sess.lookup k = some z at hz
    rw [lookup_store] at hz
    split at hz
  · cases hz
    refine .inl ?_
    show n < p.numPages
    rw [hnum]
    exact (h.numPages i x hx n hn).elim id (hlt n)
  · rw [(alone_iff s i).1 halone k ‹_›] at hz
    cases hz
  · cases hz
    intro bs hbs
    rw [blobs_eq_nil (hbs.symm.trans (List.drop_length (l := Wal.header)))]
    simp
  · rw [(alone_iff s i).1 halone k ‹_›] at hz
    cases hz

theorem counted_drop (hs : Sound s) (h : Counted s used) (ht : s.drop i = some t) : Counted t used := by
  obtain ⟨x, p, hx, hf, rfl⟩ := drop_cases ht
  obtain ⟨unread, htr⟩ := hs.tracks i x hx
  obtain ⟨hle, -⟩ := Pager.length_le_flush (htr.pager s) hf
  have hkept : ∀ k z, (s.sess.erase i).lookup k = some z → s.sess.lookup k = some z := by
    intro k z hz
    by_cases hk : k = i
    · subst hk
      rw [AList.lookup_erase] at hz
      cases hz
    · rwa [AList.lookup_erase_ne hk] at hz
  exact ⟨fun n hn => (h.file n hn).imp_left fun hl => hl.trans hle, fun k z hz => h.numPages k z (hkept k z hz),
    fun k z hz => h.batches k z (hkept k z hz)⟩

theorem counted_checkpoint_drop (hs : Sound s) (h : Counted s used) (hx : s.sess.lookup i = some x)
    (hcovers : Covers s (s.pagerOf x)) {s' : System} (ht : s.checkpoint i = some s') (ht' : s'.drop i = some t) :
    Counted t used := by
  obtain ⟨x', p, hx', hin, halone, hf, rfl⟩ := checkpoint_cases ht
  obtain rfl : x = x' := Option.some.inj (hx.symm.trans hx')
  obtain ⟨unread, htr⟩ := hs.tracks i x hx
  have hfile := length_flush_of_covers h (htr.pager s) (Nat.le_refl _) hcovers hf
  obtain ⟨y, q, hy, hf', rfl⟩ := drop_cases ht'
  change (s.store i _ p).sess.lookup i = some y at hy
  rw [lookup_store, if_pos rfl] at hy
  cases hy
  have hwf : p.WF := Pager.wf_flush (htr.pager s) (htr.touched_eq_none hin) hf
  have hgone : ∀ k z, ((s.sess.insert i { x with walPos := Wal.header.length, mem := p.toPagerMem }).erase i).lookup k =
      some z → False := by
    intro k z hz
    by_cases hk : k = i
    · subst hk
      rw [AList.lookup_erase] at hz
      cases hz
    · rw [AList.lookup_erase_ne hk, AList.lookup_insert_ne hk, (alone_iff s i).1 halone k hk] at hz
      cases hz
  exact ⟨fun n hn => .inl ((hfile n hn).trans (Pager.length_le_flush hwf hf').1), fun k z hz => (hgone k z hz).elim,
    fun k z hz => (hgone k z hz).elim⟩

theorem counted_close {checkpoint : Bool} (hs : Sound s) (h : Counted s used) (hok : CountOk s (.close i checkpoint))
    (ht : s.close i checkpoint = some t) : Counted t used := by
  obtain ⟨x, s1, s2, hx, h1, h2, h3⟩ := close_cases ht
  obtain ⟨hs1, hc1, x1, hx1, hp1, hsame, halone⟩ : Sound s1 ∧ Counted s1 used ∧ ∃ x1, s1.sess.lookup i = some x1 ∧
      s1.pagerOf x1 = s.closing x ∧ (s1.log = s.log ∧ s1.file = s.file) ∧ s1.alone i = s.alone i := by
    rcases h1 with ⟨hin, h1⟩ | ⟨hin, rfl⟩
    · have hs1 := sound_rollback hs h1
      obtain ⟨x', hx', -, rfl⟩ := rollback_cases h1
      obtain rfl : x = x' := Option.some.inj (hx.symm.trans hx')
      refine ⟨hs1, counted_store (y := { x with inTxn := false }) h hx (Nat.le_refl _) (Nat.le_refl _) rfl, _,
        AList.lookup_insert _, ?_, ⟨rfl, rfl⟩, alone_store (by rw [hx]; rfl) _ _ i⟩
      rw [closing, if_pos hin]
      rfl
    · exact ⟨hs, h, x, hx, by rw [closing, hin]; rfl, ⟨rfl, rfl⟩, rfl⟩
  rcases h2 with ⟨hc, h2⟩ | ⟨-, rfl⟩
  · rw [halone] at hc
    have hcovers := hok x hx hc
    unfold Covers at hcovers
    rw [← hsame.1, ← hsame.2, ← hp1] at hcovers
    exact counted_checkpoint_drop hs1 hc1 hx1 hcovers h2 h3
  · exact counted_drop hs1 hc1 h3

theorem counted_step (hs : Sound s) (h : Counted s used) {a : Action} (hok : FreshOk s a) (hcount : CountOk s a)
    (ht : s.step a = some t) : Counted t used := by
  cases a with
  | «open» i cacheSize =>
    obtain ⟨u, hu, ht⟩ := openSession_cases ht
    exact counted_get (sound_openFiles hs hok hu) (counted_openFiles hs h hok hu) ht
  | refresh i reads => exact counted_refresh hs h ht
  | get i n => exact counted_get hs h ht
  | begin i =>
    obtain ⟨x, hx, -, -, rfl⟩ := begin_cases ht
    exact counted_store (y := { x with inTxn := true }) h hx (Nat.le_refl _) (Nat.le_refl _) rfl
  | write i n data =>
    obtain ⟨x, p, hx, hin, hw, rfl⟩ := write_cases ht
    obtain ⟨unread, htr⟩ := hs.tracks i x hx
    have hw := Pager.writes_write (htr.pager s) (htr.touched_isSome hin) hw
    exact counted_store h hx (by rw [hw.file_eq]; exact Nat.le_refl _) (by rw [hw.numPages_eq]; exact Nat.le_max_left _ _) rfl
  | allocate i =>
    obtain ⟨x, hx, hin, rfl⟩ := allocate_cases ht
    obtain ⟨unread, htr⟩ := hs.tracks i x hx
    have hw := Pager.writes_allocate (htr.pager s) (htr.touched_isSome hin)
    exact counted_store h hx (by rw [hw.file_eq]; exact Nat.le_refl _) (by rw [hw.numPages_eq]; exact Nat.le_max_left _ _) rfl
  | commit i => exact counted_commit hs h ht (fun x hx n hn => .inl hn) hok
  | rollback i =>
    obtain ⟨x, hx, -, rfl⟩ := rollback_cases ht
    exact counted_store (y := { x with inTxn := false }) h hx (Nat.le_refl _) (Nat.le_refl _) rfl
  | checkpoint i => exact counted_checkpoint hs h hcount ht
  | close i checkpoint => exact counted_close hs h hcount ht

theorem counted_init (file log : Bytes) : Counted (init file log) (List.range (file.length / pageSize)) where
  file n hn := .inl ((Nat.le_div_iff_mul_le (by decide)).1 (List.mem_range.1 hn))
  numPages i x hx := by cases hx
  batches i x hx := by cases hx

/-- Every page that was committed, or was there at the beginning, is in use. -/
def CountsStored (s : System) : Prop := ∃ used, Counted s used ∧ ∀ n, s.Stored n → n ∈ used

theorem countsStored_step (hs : Sound s) (h : CountsStored s) {a : Action} (hok : FreshOk s a) (hcount : CountOk s a)
    (ht : s.step a = some t) : CountsStored t := by
  obtain ⟨used, hused, hstored⟩ := h
  by_cases hc : ∃ k, a = .commit k
  · obtain ⟨i, rfl⟩ := hc
    obtain ⟨x, hx, -, hcase⟩ := commit_cases hs ht
    refine ⟨used ++ x.mem.touched.getD [], counted_commit hs hused ht (fun y hy n hn => ?_) hok, fun n hn => ?_⟩
    · obtain rfl : x = y := Option.some.inj (hx.symm.trans hy)
      exact List.mem_append.1 hn
    · rcases hcase with ⟨-, rfl⟩ | ⟨b, hb, -, -, rfl⟩
      · exact List.mem_append_left _ (hstored n hn)
      · rcases hn with hn | hn
        · change n ∈ (s.history ++ [b.pages]).flatten.map Prod.fst at hn
          rw [List.flatten_append, List.map_append, List.mem_append] at hn
          rcases hn with hn | hn
          · exact List.mem_append_left _ (hstored n (.inl hn))
          · rw [List.flatten_singleton, hb, List.map_map] at hn
            obtain ⟨m, hm, rfl⟩ := List.mem_map.1 hn
            exact List.mem_append_right _ ((List.mem_insertionSort _).1 hm)
        · exact List.mem_append_left _ (hstored n (.inr hn))
  · obtain ⟨hhist, horig⟩ := history_step (fun k h => hc ⟨k, h⟩) ht
    refine ⟨used, counted_step hs hused hok hcount ht, fun n hn => hstored n ?_⟩
    unfold Stored at *
    rwa [← hhist, ← horig]

theorem countsStored_init (file log : Bytes) : CountsStored (init file log) :=
  ⟨_, counted_init file log, fun n hn => List.mem_range.2 ((Nat.le_div_iff_mul_le (by decide)).2
    (hn.resolve_left (by simp [init])))⟩

/-- A session that has adopted the whole log has every such page in range. -/
theorem CountsStored.lt (h : CountsStored s) (hx : s.sess.lookup i = some x) (hpos : s.log.drop x.walPos = []) {n : Nat}
    (hn : s.Stored n) : n < x.mem.numPages := by
  obtain ⟨used, hused, hstored⟩ := h
  exact (hused.numPages i x hx n (hstored n hn)).resolve_right (not_behind hpos n)

end System

end LeafDb
