import LeafDb.FileObjects

/-!
# What a session reads between statements

A session that has run `refresh_from_wal` reads the committed image of every page for the rest of its statement, while
the other sessions do anything but commit. Every write is in the data file in `direct`; a coherent read of a session
gives there what it gives through the session's file object.
-/

namespace LeafDb

namespace System
variable {s t u : System} {i n : Nat} {x : Session}

/-- What goes on during a statement of session `i` outside a transaction: it reads, and no other session commits. -/
def InStatement (i : Nat) (a : Action) : Prop := (∃ n, a = .get i n) ∨ a.actor ≠ i ∧ ∀ k, a ≠ .commit k

/-- Session `i` is outside a transaction and has adopted all that was committed, which is what was in `s`. -/
structure UpToDate (i : Nat) (s u : System) : Prop where
  current : Current u
  counts : CountsStored u
  history : u.history = s.history
  orig : u.orig = s.orig
  session : ∃ x, u.sess.lookup i = some x ∧ x.inTxn = false ∧ u.log.drop x.walPos = []

theorem UpToDate.step (h : UpToDate i s u) {a : Action} (hok : FreshOk u a ∧ CountOk u a) (ha : InStatement i a)
    (ht : u.step a = some t) : UpToDate i s t := by
  have hc : ∀ k, a ≠ .commit k := by
    rcases ha with ⟨n, rfl⟩ | ⟨-, hc⟩
    · exact fun k hk => by cases hk
    · exact hc
  obtain ⟨hhist, horig⟩ := history_step hc ht
  refine ⟨current_step h.current hok.1 ht, countsStored_step h.current.sound h.counts hok.1 hok.2 ht,
    hhist.trans h.history, horig.trans h.orig, ?_⟩
  obtain ⟨x, hx, hin, hpos⟩ := h.session
  rcases ha with ⟨n, rfl⟩ | ⟨hi, -⟩
  · obtain ⟨y, _, q, hy, -, rfl⟩ := get_cases ht
    obtain rfl : x = y := Option.some.inj (hx.symm.trans hy)
    exact ⟨_, AList.lookup_insert _, hin, hpos⟩
  · rcases log_step h.current.sound hok.1.openAlone ht fun _ => ⟨i, x, hi.symm, hx⟩ with ⟨hlog, -⟩ | ⟨⟨k, hk⟩, -⟩
    · exact ⟨x, (lookup_step ht hi).trans hx, hin, by rw [hlog]; exact hpos⟩
    · exact (hc k hk).elim

theorem UpToDate.content_eq (h : UpToDate i s u) (hx : u.sess.lookup i = some x) (n : Nat) :
    (u.pagerOf x).content n = s.committed n := by
  obtain ⟨y, hy, hin, hpos⟩ := h.session
  obtain rfl : x = y := Option.some.inj (hx.symm.trans hy)
  obtain ⟨unread, htr⟩ := h.current.sound.tracks i x hx
  rw [← (htr.pager u).base_eq_content (htr.touched_eq_none hin), h.current.base_eq i x hx n (not_behind hpos n)]
  unfold committed
  rw [h.history, h.orig]

theorem UpToDate.lt_numPages (h : UpToDate i s u) (hx : u.sess.lookup i = some x) (hn : s.Stored n) :
    n < x.mem.numPages := by
  obtain ⟨y, hy, -, hpos⟩ := h.session
  obtain rfl : x = y := Option.some.inj (hx.symm.trans hy)
  refine h.counts.lt hx hpos ?_
  unfold Stored at *
  rwa [h.history, h.orig]

end System

namespace Disk
open LeafDb.System (Action Sound FreshOk CountOk Current CountsStored InStatement UpToDate Plain)
variable {d u : Disk} {i n : Nat} {x : Session} {im : Image} {p : Pager}

/-- A coherent read returns what it returns with every write in the data file. -/
theorem get_direct (hs : Sound d.direct) (hx : d.sys.sess.lookup i = some x) (hok : d.Coherent (.act (.get i n)))
    (hg : ((d.seen i).pagerOf x).get n = .ok (im, p)) : ∃ q, (d.direct.pagerOf x).get n = .ok (im, q) := by
  obtain ⟨unread, htr⟩ := hs.tracks i x hx
  have hf := Pager.fetches_get (htr.wf _) hg
  have hsame : Pager.ReadsSame ((d.files i).view d.sys.file) d.made ((d.seen i).pagerOf x) p := (hok x hx im p hg).1
  exact ⟨_, Pager.get_withFile (f := d.made)
    (fun hnone => hsame n hnone (Option.isSome_iff_exists.2 ⟨im, hf.fetched⟩)) hg⟩

theorem current_of_run {file log : Bytes} (hlog : log.length ≤ Wal.header.length) {es : List Event}
    (hrun : Run step (Meets fun s a => FreshOk s a ∧ CountOk s a) (init file log) es d) :
    Current d.direct ∧ CountsStored d.direct :=
  direct_run (P := fun s => Current s ∧ CountsStored s)
    (fun _ _ _ h hok ht => ⟨System.current_step h.1 hok.1 ht, System.countsStored_step h.1.sound h.2 hok.1 hok.2 ht⟩)
    (fun _ h => h.1.sound) hrun ⟨System.current_init file hlog, System.countsStored_init file log⟩

/-- After `refresh_from_wal`, and for the rest of the statement, a session reads of every page the image of the last
committed batch that has it. -/
theorem get_of_refreshed {file log : Bytes} (hlog : log.length ≤ Wal.header.length) {es fs : List Event}
    (hrun : Run step (Meets fun s a => FreshOk s a ∧ CountOk s a) (init file log) es d) (hi : d.sys.refreshed = some i)
    (hrest : Run step (Meets fun s a => (FreshOk s a ∧ CountOk s a) ∧ InStatement i a) d fs u)
    (hx : u.sys.sess.lookup i = some x) (hread : u.Coherent (.act (.get i n))) :
    (d.sys.Stored n → ∃ im p, ((u.seen i).pagerOf x).get n = .ok (im, p)) ∧
    ∀ im p, ((u.seen i).pagerOf x).get n = .ok (im, p) → im.bytes = d.sys.committed n := by
  obtain ⟨hcur, hcounts⟩ := current_of_run hlog hrun
  have hu : UpToDate i d.direct u.direct :=
    direct_run (P := UpToDate i d.direct) (fun s a t h hok ht => h.step hok.1 hok.2 ht) (fun s h => h.current.sound)
      hrest ⟨hcur, hcounts, rfl, rfl, hcur.sound.current i hi⟩
  refine ⟨fun hn => Pager.exists_get (.inl (hu.lt_numPages (s := d.direct) hx hn)), fun im p hg => ?_⟩
  obtain ⟨unread, htr⟩ := hu.current.sound.tracks i x hx
  obtain ⟨q, hdirect⟩ := get_direct hu.current.sound hx hread hg
  rw [(Pager.fetches_get (htr.pager u.direct) hdirect).bytes_eq]
  exact hu.content_eq hx n

/-! ### Session 1 reads the page session 0 committed -/

theorem unbuffered_of_plain {s : System} {a : Action} (h : Plain s a) (hb : (still s).base a = none) : s.writes a = [] := by
  cases a with
  | refresh i reads =>
    obtain rfl : reads = [] := h
    have hnone : ∀ batches (p : Pager), p.adoptAllWrites batches [] = [] := by
      intro batches
      induction batches with
      | nil => exact fun p => rfl
      | cons b batches ih =>
        intro p
        simp only [Pager.adoptAllWrites, List.headD_nil, Pager.getAllWrites, Pager.getAll, List.tail_nil, if_true,
          List.nil_append]
        exact ih _
    simp only [System.writes]
    split
    · rfl
    split
    · rfl
    split
    · rfl
    · exact hnone _ _
  | get | allocate | rollback | checkpoint | close => exact h.elim
  | _ => rfl

theorem CountOk.of_plain {s : System} {a : Action} (h : Plain s a) : CountOk s a := by
  cases a with
  | checkpoint | close => exact h.elim
  | _ => trivial

/-- Session 1 has adopted page 1, and its pool has room for `c` pages more. -/
theorem exists_refreshed {file : Bytes} (hlen : file.length = 3 * pageSize) (c : Nat) :
    ∃ s y, Run step (Meets fun s a => FreshOk s a ∧ CountOk s a) (init file []) (List.map .act
        [.open 0 4, .open 1 (c + 1), .refresh 0 [], .begin 0, .write 0 1 [1], .commit 0, .refresh 1 []]) (still s) ∧
      Sound s ∧ s.refreshed = some 1 ∧ s.sess.lookup 1 = some y ∧ s.committed 1 = padTo pageSize [1] ∧ s.Stored 1 ∧
      s.pagerOf y = ⟨⟨⟨c + 1, AList.insert 1 ⟨2, padTo pageSize [1]⟩ (AList.insert 0 ⟨1, readPage file 0⟩ ∅), [],
        c.succ_pos⟩, 3, none, ∅, 3⟩, file⟩ := by
  have hnum : file.length / pageSize = 3 := by rw [hlen]; rfl
  obtain ⟨s, x, y, hrun, hi, -, -, hy, hview, hcomm, -⟩ := System.exists_refreshed file c (by rw [hnum]; decide)
  have hsound : Sound s := (hrun.invariant (P := Current)
    (fun _ _ _ h hok ht => System.current_step h (FreshOk.of_plain hok) ht) (System.current_init file (Nat.zero_le _))).sound
  have horig : s.orig = file := hrun.invariant (P := fun s => s.orig = file)
    (fun s a t h _ ht => (System.orig_step ht).trans h) rfl
  have hrun := run_still (fun s a => FreshOk s a ∧ CountOk s a) (System.sound_init file (Nat.zero_le _))
    (fun _ _ h => h.1.openAlone) (fun _ _ _ _ h _ => meets_still h)
    (hrun.mono fun _ _ h => ⟨⟨FreshOk.of_plain h, CountOk.of_plain h⟩, unbuffered_of_plain h⟩)
  refine ⟨s, y, hrun, hsound, hi, hy, (hcomm 1).trans (if_pos rfl), .inr ?_, ?_⟩
  · rw [horig, hlen]
    decide
  · refine hview.trans ?_
    simp only [Pager.loaded, Pager.openFile, hnum]
    rfl

/-- Session 1 reads page 2, and then page 1. -/
theorem get_of_refreshed_marked : ∃ d u x im p, Run step (Meets fun s a => FreshOk s a ∧ CountOk s a)
      (init (List.replicate (3 * pageSize) 0) []) (List.map .act
        [.open 0 4, .open 1 4, .refresh 0 [], .begin 0, .write 0 1 [1], .commit 0, .refresh 1 []]) d ∧
    Run step (Meets fun s a => (FreshOk s a ∧ CountOk s a) ∧ InStatement 1 a) d [.act (.get 1 2)] u ∧
    u.sys.sess.lookup 1 = some x ∧ ((u.seen 1).pagerOf x).get 1 = .ok (im, p) ∧ im.bytes = padTo pageSize [1] := by
  obtain ⟨s, y, hrun, hs, hi, hy, hcomm, hstored, hview⟩ := exists_refreshed (List.length_replicate (a := (0 : UInt8))) 3
  generalize List.replicate (3 * pageSize) (0 : UInt8) = file at hrun hview ⊢
  obtain ⟨im1, p1, hget, hwrites, hkept⟩ : ∃ im1 p1, (s.pagerOf y).get 2 = .ok (im1, p1) ∧
      (s.pagerOf y).getWrites 2 = [] ∧ ∀ n im, (s.pagerOf y).cached n = some im → p1.cached n ≠ none := by
    rw [hview]
    refine ⟨_, _, rfl, rfl, fun n im hn => ?_⟩
    change (AList.insert 2 _ _).lookup n ≠ none
    by_cases h2 : n = 2
    · subst h2
      rw [AList.lookup_insert]
      exact Option.some_ne_none _
    · rw [AList.lookup_insert_ne h2]
      exact fun hnone => Option.some_ne_none _ (hn.symm.trans hnone)
  have hstep : s.step (.get 1 2) = some (s.store 1 y p1) := System.step_get hy hget
  have hok : FreshOk s (.get 1 2) := by
    intro z hz im p hp
    obtain rfl : y = z := Option.some.inj (hy.symm.trans hz)
    cases hget.symm.trans hp
    exact ⟨fun n im hn hnone => (hkept n im hn hnone).elim, trivial⟩
  have hdisk := step_still hs (fun _ => by simp only [System.writes, hy]; exact hwrites) hstep
  have hrest : Run step (Meets fun s a => (FreshOk s a ∧ CountOk s a) ∧ InStatement 1 a) (still s) [.act (.get 1 2)]
      (still (s.store 1 y p1)) := by
    exact .single (meets_still ⟨⟨hok, trivial⟩, .inl ⟨2, rfl⟩⟩) hdisk
  have hlook : (s.store 1 y p1).sess.lookup 1 = some { y with mem := p1.toPagerMem } := AList.lookup_insert _
  obtain ⟨hreturns, hread⟩ := get_of_refreshed (Nat.zero_le _) hrun hi hrest hlook (coherent_still _ (.get 1 1))
  obtain ⟨im, p, hg⟩ := hreturns hstored
  exact ⟨_, _, _, im, p, hrun, hrest, hlook, hg, (hread im p hg).trans hcomm⟩

/-- A clean page adopted from the log leaves the pool and is read from a data file that does not have it. -/
theorem fresh_fails :
    ¬ ∀ (file log : Bytes) (es fs : List Event) (d u : Disk) (i n : Nat) (x : Session) (im : Image) (p : Pager),
      log.length ≤ Wal.header.length → Run step (fun _ _ => True) (init file log) es d → d.sys.refreshed = some i →
      Run step (fun _ e => ∃ n, e = .act (.get i n)) d fs u → u.sys.sess.lookup i = some x →
      ((u.seen i).pagerOf x).get n = .ok (im, p) → im.bytes = d.sys.committed n := by
  intro h
  obtain ⟨s, y, hrun, hs, hi, hy, hcomm, -, hview⟩ := exists_refreshed (List.length_replicate (a := (0 : UInt8))) 0
  have hzero : (readPage (List.replicate (3 * pageSize) (0 : UInt8)) 1).getD 0 0 = 0 := by
    rw [getD_readPage, List.getD_eq_getElem?_getD, List.getElem?_replicate]
    simp [pageSize]
  generalize List.replicate (3 * pageSize) (0 : UInt8) = file at hrun hview hzero
  obtain ⟨im1, p1, im2, p2, hget, hwrites, hget2, him2⟩ : ∃ im1 p1 im2 p2, (s.pagerOf y).get 2 = .ok (im1, p1) ∧
      (s.pagerOf y).getWrites 2 = [] ∧ p1.get 1 = .ok (im2, p2) ∧ im2.bytes = readPage file 1 := by
    rw [hview]
    exact ⟨_, _, _, _, rfl, rfl, rfl, rfl⟩
  have hstep : s.step (.get 1 2) = some (s.store 1 y p1) := System.step_get hy hget
  have hdisk := step_still hs (fun _ => by simp only [System.writes, hy]; exact hwrites) hstep
  have := h file [] _ _ _ _ 1 1 _ im2 p2 (Nat.zero_le _) (hrun.mono fun _ _ _ => trivial) hi (.single ⟨2, rfl⟩ hdisk)
    (AList.lookup_insert _) hget2
  have h0 := System.getD_marked
  rw [show padTo pageSize [1] = s.committed 1 from hcomm.symm, ← show im2.bytes = s.committed 1 from this, him2,
    hzero] at h0
  cases h0

end Disk

end LeafDb
