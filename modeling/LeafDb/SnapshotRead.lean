import LeafDb.FreshRead

/-!
# What a transaction without writes reads

The snapshot of session `r` is its pool and, for the other pages, what its file object shows of the data file at the
moment of the read. In a transaction the pool only grows, so the snapshot stands as long as nothing the other sessions
or the file objects do changes what `r` sees of a page it does not have in its pool (`ViewKept`).
-/

namespace LeafDb

namespace System
variable {s t : System} {r n k : Nat} {C : Nat → Bytes}

/-- Session `r` reads of every page the image `C` has, and counts `k` pages. -/
def Snapshot (r : Nat) (C : Nat → Bytes) (k : Nat) (s : System) : Prop :=
  ∃ x, s.sess.lookup r = some x ∧ (∀ f, Pager.WF { x.mem with file := f }) ∧ x.inTxn = x.mem.touched.isSome ∧
    x.mem.numPages = k ∧ ∀ n, (s.pagerOf x).content n = C n

theorem snapshot_begin (h : Snapshot r C k s) (ht : s.begin r = some t) : Snapshot r C k t := by
  obtain ⟨x, hx, hwf, hin, hnum, hcontent⟩ := h
  obtain ⟨y, hy, -, -, rfl⟩ := begin_cases ht
  obtain rfl : x = y := Option.some.inj (hx.symm.trans hy)
  exact ⟨_, AList.lookup_insert _, fun f => Pager.wf_begin (hwf f), rfl, hnum, hcontent⟩

theorem snapshot_get (h : Snapshot r C k s) (htxn : ∀ x, s.sess.lookup r = some x → x.inTxn = true)
    (ht : s.get r n = some t) : Snapshot r C k t := by
  obtain ⟨x, hx, hwf, hin, hnum, hcontent⟩ := h
  obtain ⟨y, im, p, hy, hg, rfl⟩ := get_cases ht
  obtain rfl : x = y := Option.some.inj (hx.symm.trans hy)
  have hf := Pager.fetches_get (hwf s.file) hg
  refine ⟨_, AList.lookup_insert _, (hf.wf (hwf s.file)).file, ?_, hf.numPages_eq.trans hnum, fun m => ?_⟩
  · show x.inTxn = p.touched.isSome
    rw [hf.touched_eq]
    exact hin
  · exact (hf.content_eq_of_touched (hin.symm.trans (htxn x hx)) m).trans (hcontent m)

/-- In a transaction a read writes nothing to the data file. -/
theorem writes_get (h : Snapshot r C k s) (htxn : ∀ x, s.sess.lookup r = some x → x.inTxn = true) (n : Nat) :
    s.writes (.get r n) = [] := by
  obtain ⟨x, hx, -, hin, -⟩ := h
  have htouched : x.mem.touched.isSome := hin.symm.trans (htxn x hx)
  simp only [writes, hx, Pager.getWrites]
  split
  · rfl
  split
  · rfl
  · exact if_pos htouched

end System

namespace Disk
open LeafDb.System (Action Sound FreshOk CountOk Current CountsStored Snapshot)
variable {d d' u : Disk} {e : Event} {r n k : Nat} {x : Session} {im : Image} {p : Pager} {C : Nat → Bytes}

/-- Session `r` begins a transaction and only reads in it. -/
def OnlyReads (r : Nat) (d : Disk) (e : Event) : Prop :=
  ∀ a, e = .act a → a.actor = r → a = .begin r ∨ ∃ n, a = .get r n ∧ ∀ x, d.sys.sess.lookup r = some x → x.inTxn = true

/-- The event is an action of `r`, or leaves every page that is not in `r`'s pool as the file object of `r` shows it. -/
def ViewKept (r : Nat) (d : Disk) (e : Event) : Prop :=
  (∃ a, e = .act a ∧ a.actor = r) ∨ ∀ x d', d.sys.sess.lookup r = some x → d.step e = some d' → ∀ n,
    (d.sys.pagerOf x).cached n = none → readPage (d'.seen r).file n = readPage (d.seen r).file n

/-- What other sessions and the file objects do leaves a session as it is. -/
theorem lookup_event (ht : d.step e = some d') (hr : ∀ a, e = .act a → a.actor ≠ r) :
    d'.sys.sess.lookup r = d.sys.sess.lookup r := by
  cases e with
  | act a =>
    have hr := hr a rfl
    rcases act_cases ht with ⟨s, t, hb, hstep, rfl⟩ | ⟨t, -, hstep, rfl⟩
    · rw [System.lookup_step hstep hr, sess_base hb]
    · exact (System.lookup_step hstep hr : t.sess.lookup r = _)
  | spill i =>
    simp only [step] at ht
    split at ht
    · rw [← Option.some.inj ht]
      rfl
    · cases ht
  | fill i ns =>
    simp only [step] at ht
    split at ht
    · rw [← Option.some.inj ht]
    · cases ht

/-- An action that writes nothing to the data file does to its session what it does without buffers. -/
theorem seen_of_writes {a : Action} (hbase : d.base a = none) (hwrites : (d.seen a.actor).writes a = [])
    (hfile : ∀ t, (d.seen a.actor).step a = some t → t.file = (d.seen a.actor).file) (ht : d.step (.act a) = some d') :
    (d.seen a.actor).step a = some (d'.seen a.actor) := by
  rcases act_cases ht with ⟨s, t, hb, -⟩ | ⟨t, -, hstep, rfl⟩
  · rw [hbase] at hb
    cases hb
  · rw [hstep, hwrites, List.append_nil]
    simp only [seen, Function.update_self]
    show some t = some (t.withFile ((d.files a.actor).view d.sys.file))
    rw [show (d.files a.actor).view d.sys.file = t.file from (hfile t hstep).symm]
    rfl

theorem snapshot_event (h : Snapshot r C k (d.seen r)) (hreads : OnlyReads r d e) (hkept : ViewKept r d e)
    (ht : d.step e = some d') : Snapshot r C k (d'.seen r) := by
  by_cases hr : ∃ a, e = .act a ∧ a.actor = r
  · obtain ⟨a, rfl, har⟩ := hr
    rcases hreads a rfl har with rfl | ⟨n, rfl, htxn⟩
    · refine System.snapshot_begin h (seen_of_writes (a := .begin r) rfl rfl (fun t ht => ?_) ht)
      obtain ⟨y, -, -, -, rfl⟩ := System.begin_cases ht
      rfl
    · have hwrites := System.writes_get h htxn n
      refine System.snapshot_get h htxn (seen_of_writes (a := .get r n) rfl hwrites (fun t ht => ?_) ht)
      obtain ⟨y, im, p, hy, hg, rfl⟩ := System.get_cases ht
      have hnone : ((d.seen r).pagerOf y).getWrites n = [] := by
        rw [← hwrites, System.writes, show (d.seen r).sess.lookup r = some y from hy]
      have hfile := Pager.file_get hg
      change p.file = Pager.writePages ((d.seen r).pagerOf y).file (((d.seen r).pagerOf y).getWrites n) at hfile
      rw [hnone] at hfile
      exact hfile
  · have hr : ∀ a, e = .act a → a.actor ≠ r := fun a ha hr' => hr ⟨a, ha, hr'⟩
    obtain ⟨x, hx, hwf, hin, hnum, hcontent⟩ := h
    refine ⟨x, (lookup_event ht hr).trans hx, hwf, hin, hnum, fun n => ?_⟩
    rw [← hcontent n]
    cases hc : (d.sys.pagerOf x).cached n with
    | some im =>
      exact (Pager.content_of_cached (p := (d'.seen r).pagerOf x) hc).trans
        (Pager.content_of_cached (p := (d.seen r).pagerOf x) hc).symm
    | none =>
      refine (Pager.content_of_not_cached (p := (d'.seen r).pagerOf x) hc).trans ?_
      rw [Pager.content_of_not_cached (p := (d.seen r).pagerOf x) hc]
      rcases hkept with ⟨a, ha, hr'⟩ | hkept
      · exact (hr a ha hr').elim
      · exact hkept x d' hx ht n hc

/-- In a transaction of session `r` that begins after a refresh and makes no writes, every read returns the image of
the committed state adopted by that refresh, whatever the other sessions do meanwhile. -/
theorem get_in_snapshot {file log : Bytes} (hlog : log.length ≤ Wal.header.length) {es fs : List Event}
    (hrun : Run step (Meets fun s a => FreshOk s a ∧ CountOk s a) (init file log) es d) (hr : d.sys.refreshed = some r)
    (hseen : ∀ x n, d.sys.sess.lookup r = some x → (d.sys.pagerOf x).cached n = none →
      readPage (d.seen r).file n = readPage d.made n)
    (hrun' : Run step (fun u e => OnlyReads r u e ∧ ViewKept r u e) d fs u) (hx : u.sys.sess.lookup r = some x) :
    (d.sys.Stored n → ∃ im p, ((u.seen r).pagerOf x).get n = .ok (im, p)) ∧
    ∀ im p, ((u.seen r).pagerOf x).get n = .ok (im, p) → im.bytes = d.sys.committed n := by
  obtain ⟨hcur, hcounts⟩ := current_of_run hlog hrun
  obtain ⟨y, hy, hin, hpos⟩ := hcur.sound.current r hr
  obtain ⟨unread, htr⟩ := hcur.sound.tracks r y hy
  have hcontent : ∀ n, ((d.seen r).pagerOf y).content n = d.sys.committed n := by
    intro n
    have hdirect : (d.direct.pagerOf y).content n = d.sys.committed n := by
      rw [← (htr.pager d.direct).base_eq_content (htr.touched_eq_none hin)]
      exact hcur.base_eq r y hy n (not_behind hpos n)
    rw [← hdirect]
    cases hc : (d.sys.pagerOf y).cached n with
    | some im =>
      exact (Pager.content_of_cached (p := (d.seen r).pagerOf y) hc).trans
        (Pager.content_of_cached (p := d.direct.pagerOf y) hc).symm
    | none =>
      refine (Pager.content_of_not_cached (p := (d.seen r).pagerOf y) hc).trans ?_
      rw [Pager.content_of_not_cached (p := d.direct.pagerOf y) hc]
      exact hseen y n hy hc
  obtain ⟨x', hx', hwf, -, hnum, hsnap⟩ : Snapshot r d.sys.committed y.mem.numPages (u.seen r) :=
    hrun'.invariant (P := fun u => Snapshot r d.sys.committed y.mem.numPages (u.seen r))
      (fun _ _ _ h hok ht => snapshot_event h hok.1 hok.2 ht) ⟨y, hy, htr.wf, htr.inTxn_eq, rfl, hcontent⟩
  obtain rfl : x = x' := Option.some.inj (hx.symm.trans hx')
  refine ⟨fun hn => Pager.exists_get (.inl ?_), fun im p hg => ?_⟩
  · exact (hcounts.lt hy hpos hn).trans_eq hnum.symm
  · exact (Pager.fetches_get (p := (u.seen r).pagerOf x) (hwf _) hg).bytes_eq.trans (hsnap n)

/-! ### Session 1 reads while session 0 commits -/

theorem viewKept_still {s t : System} {a : Action} (hs : Sound s) (hopen : ∀ i c, a ≠ .open i c) (hw : s.writes a = [])
    (ht : s.step a = some t) : ViewKept r (still s) (.act a) := by
  refine .inr fun x d' _ hd' n _ => ?_
  rw [step_still hs (fun _ => hw) ht] at hd'
  cases hd'
  show readPage t.file n = readPage s.file n
  rw [(System.onFileToo hs hopen (readsAs_self s a) ht).file, hw]
  rfl

/-- Session 1 begins, and session 0 commits page `n`. -/
theorem exists_begun {file : Bytes} {m n : Nat} (hm : 2 ≤ m) (hlen : file.length = m * pageSize) (hnum : max m (n + 1) < 256 ^ 4) :
    ∃ s t x y, Run step (Meets fun s a => FreshOk s a ∧ CountOk s a) (init file []) (List.map .act
        [.open 0 4, .open 1 4, .refresh 0 [], .begin 0, .write 0 1 [1], .commit 0, .refresh 1 []]) (still s) ∧
      s.refreshed = some 1 ∧
      Run step (fun u e => OnlyReads 1 u e ∧ ViewKept 1 u e) (still s)
        (List.map .act [.begin 1, .begin 0, .write 0 n [2], .commit 0]) (still t) ∧
      Sound t ∧ t.sess.lookup 0 = some x ∧ x.inTxn = false ∧ n ∈ x.mem.pool.dirty ∧
      (t.pagerOf x).content n = padTo pageSize [2] ∧ t.sess.lookup 1 = some y ∧ y.inTxn = true ∧
      (n ≠ 0 → n ≠ 1 → (t.pagerOf y).cached n = none ∧ s.committed n = readPage file n) ∧
      ∀ n < m, s.Stored n := by
  have hdiv : file.length / pageSize = m := by rw [hlen]; exact Nat.mul_div_cancel m (by decide)
  have hpages : max (max 1 (file.length / pageSize)) 2 = m := by rw [hdiv]; omega
  obtain ⟨s, x0, y0, hrun, hi, hfile, hx0, hy0, hview, hcomm, hx0in, hy0in, -, -, hx0pos, -, hx0num, -⟩ :=
    System.exists_refreshed file 3 (by rw [hdiv]; omega)
  have hs : Sound s := (hrun.invariant (P := Current)
    (fun _ _ _ h hok ht => System.current_step h (FreshOk.of_plain hok) ht) (System.current_init file (Nat.zero_le _))).sound
  have horig : s.orig = file := hrun.invariant (P := fun s => s.orig = file)
    (fun s a t h _ ht => (System.orig_step ht).trans h) rfl
  -- session 1 begins
  have h1 := System.step_begin hy0 hy0in ((congrArg (fun p : Pager => p.touched) hview).trans
    (Pager.adopts_adopt _ _ _).touched_eq)
  set s1 := s.store 1 { y0 with inTxn := true } { s.pagerOf y0 with touched := some [], shadow := ∅ }
  have hs1 : Sound s1 := System.sound_step hs (a := .begin 1) trivial h1
  have hx1 : s1.sess.lookup 0 = some x0 := (AList.lookup_insert_ne (by decide)).trans hx0
  obtain ⟨t, x, hu, hrun'⟩ := System.exists_updates n [2] hs1 hx1 hx0in hx0pos (by decide)
    (by rw [hx0num, hpages]; exact hnum)
  have hy : t.sess.lookup 1 = some ⟨{ s.pagerOf y0 with touched := some [], shadow := ∅ }, y0.walPos, true⟩ :=
    (hu.others 1 (by decide)).trans (AList.lookup_insert _)
  let own : Action → Prop := fun a => a = .begin 1 ∨ a = .begin 0 ∨ a = .write 0 n [2] ∨ a = .commit 0
  have hbegin : Run System.step (fun _ a => own a) s [.begin 1] s1 := .single (.inl rfl) h1
  have hrun' := hbegin.append (hrun' (fun _ a => own a) (.inr (.inl rfl)) (fun _ => .inr (.inr (.inl rfl))) fun _ _ => .inr (.inr (.inr rfl)))
  have hwrites : ∀ {a}, own a → ∀ s : System, s.writes a = [] := by rintro a (rfl | rfl | rfl | rfl) s <;> rfl
  have hopen : ∀ {a}, own a → ∀ i c, a ≠ .open i c := by
    rintro a (rfl | rfl | rfl | rfl) i c h <;> cases h
  refine ⟨s, t, x, _, ?_, hi, ?_, ?_, hu.lookup, hu.inTxn, (hu.mem_dirty n).2 (.inl rfl),
    (hu.content n).trans (if_pos rfl), hy, rfl, fun h0 h1 => ⟨?_, (hcomm n).trans (if_neg h1)⟩, fun k hk => .inr ?_⟩
  · exact run_still (fun s a => FreshOk s a ∧ CountOk s a) (System.sound_init file (Nat.zero_le _)) (fun _ _ h => h.1.openAlone)
      (fun _ _ _ _ h _ => meets_still h)
      (hrun.mono fun _ _ h => ⟨⟨FreshOk.of_plain h, CountOk.of_plain h⟩, unbuffered_of_plain h⟩)
  · refine run_still (fun _ a => own a) hs (fun s a h => ?_) (fun s a t hs h ht => ⟨?_, ?_⟩)
      (hrun'.mono fun _ _ h => ⟨h, fun _ => hwrites h _⟩)
    · rcases h with rfl | rfl | rfl | rfl <;> trivial
    · rintro b hb hr
      cases hb
      rcases h with rfl | rfl | rfl | rfl
      · exact .inl rfl
      all_goals cases hr
    · exact viewKept_still hs (hopen h) (hwrites h s) ht
  · exact (hrun'.invariant (P := Sound) (fun s a t h hok ht => System.sound_step h
      (by rcases hok with rfl | rfl | rfl | rfl <;> trivial) ht) hs)
  · show (s.pagerOf y0).cached n = none
    rw [hview, (Pager.adopts_adopt _ _ _).cached_other n (by simpa using h1), Pager.cached_loaded, if_neg h0]
  · rw [horig, hlen]
    exact Nat.mul_le_mul_right _ hk

/-- Session 1 begins, session 0 commits page 2, and session 1 reads the page for the first time. -/
theorem get_in_snapshot_marked : ∃ d u x im p, Run step (Meets fun s a => FreshOk s a ∧ CountOk s a)
      (init (List.replicate (3 * pageSize) 0) []) (List.map .act
        [.open 0 4, .open 1 4, .refresh 0 [], .begin 0, .write 0 1 [1], .commit 0, .refresh 1 []]) d ∧
    Run step (fun u e => OnlyReads 1 u e ∧ ViewKept 1 u e) d
      (List.map .act [.begin 1, .begin 0, .write 0 2 [2], .commit 0]) u ∧
    u.sys.sess.lookup 1 = some x ∧ ((u.seen 1).pagerOf x).get 2 = .ok (im, p) ∧
    im.bytes = readPage (List.replicate (3 * pageSize) 0) 2 := by
  obtain ⟨s, t, x, y, hrun, hi, hrun', -, -, -, -, -, hy, -, hcached, hstored⟩ :=
    exists_begun (m := 3) (n := 2) (by decide) (List.length_replicate (a := (0 : UInt8))) (by decide)
  obtain ⟨hreturns, hread⟩ := get_in_snapshot (n := 2) (Nat.zero_le _) hrun hi (fun _ _ _ _ => rfl) hrun' hy
  obtain ⟨im, p, hg⟩ := hreturns (hstored 2 (by decide))
  exact ⟨_, _, y, im, p, hrun, hrun', hy, hg, (hread im p hg).trans (hcached (by decide) (by decide)).2⟩

/-- Another session's close writes its dirty page to the data file, where a transaction that has not read the page
yet finds it. -/
theorem snapshot_fails :
    ¬ ∀ (r n : Nat) (file log : Bytes) (es fs : List Event) (d u : Disk) (x : Session) (im : Image) (p : Pager),
      log.length ≤ Wal.header.length → Run step (fun _ _ => True) (init file log) es d → d.sys.refreshed = some r →
      Run step (OnlyReads r) d fs u → u.sys.sess.lookup r = some x → x.inTxn = true →
      ((u.seen r).pagerOf x).get n = .ok (im, p) → im.bytes = d.sys.committed n := by
  intro h
  obtain ⟨s, t, x, y, hrun, hi, hrun', hs, hx, hxin, hdirty, hcontent, hy, hyin, hcached, hstored⟩ :=
    exists_begun (m := 64) (n := 40) (by decide) (List.length_replicate (a := (0 : UInt8))) (by decide)
  obtain ⟨hnone, hcomm⟩ := hcached (by decide) (by decide)
  -- session 0 closes, and session 1 reads the page from the data file
  obtain ⟨u, hclose, hsess, -, hfile⟩ := System.exists_close hs hy hx hxin (by decide)
  have hy' : u.sess.lookup 1 = some y := by rw [hsess, AList.lookup_erase_ne (by decide)]; exact hy
  have hstep := step_still (a := .close 0 true) hs (fun hb => by cases hb) hclose
  obtain ⟨im, p, hg⟩ : ∃ im p, (u.pagerOf y).get 40 = .ok (im, p) := by
    obtain ⟨hreturns, -⟩ := get_in_snapshot (n := 40) (Nat.zero_le _) hrun hi (fun _ _ _ _ => rfl) hrun' hy
    obtain ⟨_, _, hg⟩ := hreturns (hstored 40 (by decide))
    exact Pager.exists_get (.inl (by
      by_contra hn
      rw [Pager.get, if_pos ⟨Nat.not_lt.1 hn, by decide⟩] at hg
      cases hg))
  have hclosing : OnlyReads 1 (still t) (.act (.close 0 true)) := by
    rintro a ha hr
    cases ha
    cases hr
  have := h 1 40 _ [] _ _ _ (still u) y im p (Nat.zero_le _) (hrun.mono fun _ _ _ => trivial) hi
    ((hrun'.mono fun _ _ h => h.1).append (.single hclosing hstep)) hy' hyin hg
  have htr := (System.sound_step hs (a := .close 0 true) trivial hclose).tracks 1 y hy'
  obtain ⟨unread, htr⟩ := htr
  have hread : im.bytes = padTo pageSize [2] := by
    rw [(Pager.fetches_get (htr.pager u) hg).bytes_eq, Pager.content_of_not_cached (p := u.pagerOf y) hnone]
    exact (hfile 40 hdirty).trans hcontent
  have hzero : (padTo pageSize [2]).getD 0 0 = 0 := by
    rw [← hread, this, show (still s).sys.committed 40 = _ from hcomm, getD_readPage, List.getD_eq_getElem?_getD,
      List.getElem?_replicate]
    simp [pageSize]
  rw [getD_padTo] at hzero
  cases hzero

end Disk

end LeafDb
