import LeafDb.SessionCrash

/-!
# A single session

One session at a time on one path, over processes that end by themselves. A transaction that is rolled back gets
its pre-images put back as clean pages, so the data file must have them already (`RollbackOnFile`). Then the log and
the data file back the session (`Backed`), and every page can be read with its last committed image.
-/

namespace LeafDb

namespace Pager

/-- The first write of a transaction to a page that the data file has. -/
theorem undoOnFile_write {p p' : Pager} {n : Nat} {data : Bytes} (h : p.WF) (hc : p.Clean) (hn : n ∉ p.pool.dirty)
    (hlen : (n + 1) * pageSize ≤ p.file.length)
    (hw : write { p with touched := some [], shadow := ∅ } n data = .ok p') : p'.UndoOnFile := by
  obtain ⟨-, rfl⟩ := write_eq_ok hw
  have hs := stores_putPage (wf_newImage (wf_begin h) (padTo pageSize data)) n ⟨p.nextId, padTo pageSize data⟩
  have hfile := (hs.file_touched rfl).1
  intro m im hm
  rw [hfile]
  by_cases hmn : m = n
  · subst hmn
    refine ⟨?_, hlen⟩
    cases hcached : p.cached m with
    | some im' =>
      have := (hs.shadow_cached rfl (AList.notMem_empty m) im' hcached).symm.trans hm
      obtain rfl : im' = im := Option.some.inj (Option.some.inj this)
      exact hc m im' hcached hn
    | none =>
      rcases hs.shadow_not_cached rfl (AList.notMem_empty m) hcached with hnone | ⟨im', him, hread, -⟩
      · cases hnone.symm.trans hm
      · obtain rfl : im' = im := Option.some.inj (Option.some.inj (him.symm.trans hm))
        exact hread.symm
  · cases (hs.shadow_other m (.inl hmn)).symm.trans hm

end Pager

namespace System
variable {s t : System} {i n : Nat} {x : Session}

/-- Session `i` acts, and what it rolls back was on the data file before the transaction. -/
def RollbackOnFile (i : Nat) (s : System) : Action → Prop
  | .open k _ | .refresh k _ | .get k _ | .begin k | .write k _ _ | .allocate k | .commit k | .checkpoint k => k = i
  | .rollback k => k = i ∧ ∀ x, s.sess.lookup i = some x → (s.pagerOf x).UndoOnFile
  | .close k _ => k = i ∧ ∀ x, s.sess.lookup i = some x → x.inTxn = true → (s.pagerOf x).UndoOnFile

/-- The log has no torn bytes, and with the data file it backs the session that is open. -/
structure Single (i : Nat) (s : System) : Prop where
  sound : Sound s
  backed : ∃ pend, Backed i s pend

namespace Single

/-- A log that no crash has cut is the batches that were appended to it. -/
theorem untorn (h : Sound s) : CrashState.Untorn s.log := by
  obtain ⟨pre, pend, -, hlog⟩ := h.pending
  exact ⟨pend, hlog⟩

theorem uses (h : Single i s) {a : Action} (hok : RollbackOnFile i s a) : Uses i s a := by
  cases a with
  | commit k => exact ⟨hok, fun _ _ => .inr (untorn h.sound)⟩
  | _ => exact hok

theorem openAlone (h : Single i s) {a : Action} (hok : RollbackOnFile i s a) (ht : s.step a = some t) : OpenAlone s a := by
  cases a with
  | «open» k cacheSize =>
    obtain rfl : k = i := hok
    obtain ⟨pend, hb⟩ := h.backed
    obtain ⟨u, hu, -⟩ := openSession_cases ht
    refine .inr (keys_of_lookup fun m => ?_)
    by_cases hm : m = k
    · subst hm
      exact (openFiles_eq hu).1
    · exact hb.others m hm
  | _ => trivial

theorem step_inv (h : Single i s) {a : Action} (hok : RollbackOnFile i s a) (ht : s.step a = some t) : Single i t := by
  obtain ⟨pend, hb⟩ := h.backed
  obtain ⟨pend', hb', -⟩ := hb.step (h.uses hok) ht
  exact ⟨sound_step h.sound (h.openAlone hok ht) ht, pend', hb'⟩

theorem init (i : Nat) (file : Bytes) {log : Bytes} (h : log.length ≤ Wal.header.length) :
    Single i (System.init file log) := ⟨sound_init file h, [], .init i file h⟩

/-- With nothing in the log the data file has every page. -/
theorem onFile (h : Backed i s []) (n : Nat) :
    readPage s.file n = s.committed n ∧ (s.Stored n → (n + 1) * pageSize ≤ s.file.length) :=
  ⟨h.file.read n (by simp [Batch.logged]), fun hn => (h.file.stored n hn).resolve_left (by simp [Batch.logged])⟩

end Single

/-- In every run of one session whose rollbacks put back only what the data file has, every page that was committed,
or that the data file of the beginning has, can be read outside a transaction, and a read gives the image of the last
commit that wrote the page; a checkpoint outside a transaction and an open after a close return, and leave that image
in the data file, where the page is as a whole. -/
theorem committed_of_rollbackOnFile {file log : Bytes} (hlog : log.length ≤ Wal.header.length) {as : List Action}
    (hrun : Run step (RollbackOnFile i) (init file log) as s) (n : Nat) :
    (∀ x, s.sess.lookup i = some x → x.inTxn = false →
      (s.Stored n → ∃ im p, (s.pagerOf x).get n = .ok (im, p)) ∧
      (∀ im p, (s.pagerOf x).get n = .ok (im, p) → im.bytes = s.committed n) ∧
      ∃ t, s.step (.checkpoint i) = some t ∧ readPage t.file n = s.committed n ∧
        (s.Stored n → (n + 1) * pageSize ≤ t.file.length)) ∧
    (s.sess.lookup i = none → ∀ cacheSize, 0 < cacheSize → ∃ t, s.step (.open i cacheSize) = some t ∧
      readPage t.file n = s.committed n ∧ (s.Stored n → (n + 1) * pageSize ≤ t.file.length)) := by
  obtain ⟨-, pend, h⟩ : Single i s := hrun.invariant (fun _ _ _ h hok ht => h.step_inv hok ht) (Single.init i file hlog)
  refine ⟨fun x hx hin => ⟨fun hn => ?_, h.readsCommitted hx hin n, ?_⟩, fun hnone cacheSize hc => ?_⟩
  · exact Pager.exists_get (.inl ((h.session x hx).numPages n hn))
  · obtain ⟨t, ht⟩ := h.exists_checkpoint hx hin
    obtain ⟨h', hcommitted⟩ := h.checkpoint ht
    obtain ⟨y, p, -, -, -, -, rfl⟩ := checkpoint_cases ht
    have hfile := Single.onFile h' n
    rw [hcommitted] at hfile
    exact ⟨_, ht, hfile⟩
  · obtain ⟨t, y, ht, -, -, hstored⟩ := h.exists_open hnone hc
    obtain ⟨h', hcommitted⟩ := h.open ht
    have hfile := Single.onFile h' n
    rw [hcommitted, hstored] at hfile
    exact ⟨t, ht, hfile⟩

/-- Page 1 is committed, checkpointed, written again and rolled back. -/
theorem committed_of_rollbackOnFile_marked : ∃ s x im p, Run step (RollbackOnFile 0) (init [] [])
      [.open 0 4, .begin 0, .write 0 1 [1], .commit 0, .checkpoint 0, .begin 0, .write 0 1 [2], .rollback 0] s ∧
    s.sess.lookup 0 = some x ∧ (s.pagerOf x).get 1 = .ok (im, p) ∧ im.bytes = padTo pageSize [1] := by
  obtain ⟨s1, x1, h1, hsess1, hx1, hpos1, hin1, -, -, -, -, -⟩ :=
    step_open (s := init [] []) (i := 0) (show 0 < 4 by decide) rfl rfl
  have hlook1 : s1.sess.lookup 0 = some x1 := by rw [hsess1]; exact AList.lookup_insert _
  have hrun1 : Run step (RollbackOnFile 0) (init [] []) [.open 0 4] s1 := .single rfl h1
  have hs1 : Single 0 s1 := (Single.init 0 [] (Nat.zero_le _)).step_inv (a := .open 0 4) rfl h1
  have hnum : x1.mem.numPages = 1 := congrArg (fun p : Pager => p.numPages) hx1
  obtain ⟨s2, x2, hu, hrun2⟩ := exists_updates 1 [1] hs1.sound hlook1 hin1 hpos1 (by decide)
    (by rw [hnum]; decide)
  have hrun2 := hrun1.append (hrun2 (RollbackOnFile 0) rfl (fun _ => rfl) fun _ _ => rfl)
  obtain ⟨-, pend2, hb2⟩ : Single 0 s2 :=
    hrun2.invariant (fun _ _ _ h hok ht => h.step_inv hok ht) (Single.init 0 [] (Nat.zero_le _))
  obtain ⟨s3, h3⟩ := hb2.exists_checkpoint hu.lookup hu.inTxn
  have hrun3 := hrun2.append (.single (show RollbackOnFile 0 s2 (.checkpoint 0) from rfl) h3)
  obtain ⟨hb3, hcomm3⟩ := hb2.checkpoint h3
  obtain ⟨y, p, hy, hin3, -, hf, hs3⟩ := checkpoint_cases h3
  obtain rfl : x2 = y := Option.some.inj (hu.lookup.symm.trans hy)
  have hlook3 : s3.sess.lookup 0 = some ⟨p.toPagerMem, Wal.header.length, x2.inTxn⟩ := by
    rw [hs3]
    exact AList.lookup_insert _
  set x3 : Session := ⟨p.toPagerMem, Wal.header.length, x2.inTxn⟩
  have hp3 := hb3.session x3 hlook3
  have hstored : s3.Stored 1 := by
    refine .inl ?_
    rw [hs3]
    show 1 ∈ s2.history.flatten.map Prod.fst
    rw [hu.history, List.flatten_append, List.map_append]
    exact List.mem_append_right _ (List.mem_singleton_self 1)
  have hclean : p.pool.dirty = [] := (Pager.flush_fields (hb2.session x2 hu.lookup).wf hf).2.1
  have hnone : x3.mem.touched = none := hb3.touched_eq_none hlook3 hin3
  have h4 := step_begin hlook3 hin3 hnone
  set p4 : Pager := { s3.pagerOf x3 with touched := some [], shadow := ∅ } with hp4
  obtain ⟨p5, h5⟩ : ∃ p5, p4.write 1 [2] = .ok p5 := ⟨_, rfl⟩
  have h5' := step_write (s := s3.store 0 { x3 with inTxn := true } p4) (AList.lookup_insert _) rfl h5
  set s5 := (s3.store 0 { x3 with inTxn := true } p4).store 0 ⟨p4.toPagerMem, x3.walPos, true⟩ p5
  have hlook5 : s5.sess.lookup 0 = some ⟨p5.toPagerMem, x3.walPos, true⟩ := AList.lookup_insert _
  have hok6 : RollbackOnFile 0 s5 (.rollback 0) := by
    refine ⟨rfl, fun z hz => ?_⟩
    obtain rfl := Option.some.inj (hlook5.symm.trans hz)
    exact Pager.undoOnFile_write hp3.wf hp3.clean (by rw [show (s3.pagerOf x3).pool.dirty = [] from hclean]; exact List.not_mem_nil)
      ((Single.onFile hb3 1).2 hstored) h5
  have h6 := step_rollback hlook5 rfl
  have hrun6 := hrun3.append (.cons (show RollbackOnFile 0 s3 (.begin 0) from rfl) h4
    (.cons (show RollbackOnFile 0 _ (.write 0 1 [2]) from rfl) h5' (.single hok6 h6)))
  obtain ⟨hget, hread, -⟩ := (committed_of_rollbackOnFile (Nat.zero_le _) hrun6 1).1 _ (AList.lookup_insert _) rfl
  obtain ⟨im, q, hg⟩ := hget hstored
  refine ⟨_, _, im, q, hrun6, AList.lookup_insert _, hg, (hread im q hg).trans ?_⟩
  exact (congrFun hcomm3 1).trans ((hu.committed 1).trans (if_pos rfl))

/-- Page 1 is in the pool and dirty when it is written again and rolled back. The pool gives up the image that was
put back, and the page is read from a data file that never got the commit. -/
theorem committed_fails :
    ¬ ∀ (i n : Nat) (file log : Bytes) (as : List Action) (s : System) (x : Session) (im : Image) (p : Pager),
      log.length ≤ Wal.header.length → Run step (fun _ a => a.actor = i) (init file log) as s →
      s.sess.lookup i = some x → x.inTxn = false → (s.pagerOf x).get n = .ok (im, p) → im.bytes = s.committed n := by
  intro h
  -- a data file with three pages, all zero
  set file : Bytes := List.replicate (3 * pageSize) 0 with hfile
  obtain ⟨b, hb, hnum⟩ : ∃ b : Batch, b.pages = [(1, padTo pageSize [1])] ∧ b.numPages = 3 :=
    ⟨.single 1 _ 3 (by decide) length_marked (by norm_num), rfl, rfl⟩
  obtain ⟨s0, x0, h0, hsess0, hx0, hpos0, hin0, -, hfile0, hhist0, horig0, -⟩ :=
    step_open (s := init file []) (i := 0) (show 0 < 1 by decide) rfl rfl
  have hlook0 : s0.sess.lookup 0 = some x0 := by rw [hsess0]; exact AList.lookup_insert _
  have hview : s0.pagerOf x0 = ⟨⟨⟨1, AList.insert 0 ⟨1, readPage file 0⟩ ∅, [], Nat.one_pos⟩, 3, none, ∅, 2⟩, file⟩ := by
    rw [pagerOf, hfile0]
    refine hx0.trans ?_
    have hlen : max 1 (file.length / pageSize) = 3 := by
      rw [hfile, List.length_replicate]
      rfl
    simp only [Pager.loaded, Pager.openFile, show (init file []).file = file from rfl, hlen]
    rfl
  obtain ⟨im1, p1, p2, p3, p4, im5, p5, im6, p6, hget1, hnone1, hwrite2, hcollect3, hnone3, hwrite4, hget5, hget6, him6⟩ :
      ∃ im1 p1 p2 p3 p4 im5 p5 im6 p6, (s0.pagerOf x0).get 1 = .ok (im1, p1) ∧ p1.touched = none ∧
      Pager.write { p1 with touched := some [], shadow := ∅ } 1 [1] = .ok p2 ∧
      p2.collectCommit = .ok ([(1, padTo pageSize [1])], 3, p3) ∧ p3.touched = none ∧
      Pager.write { p3 with touched := some [], shadow := ∅ } 1 [2] = .ok p4 ∧ p4.rollbackTxn.get 2 = .ok (im5, p5) ∧
      p5.get 1 = .ok (im6, p6) ∧ im6.bytes = readPage file 1 := by
    rw [hview]
    exact ⟨_, _, _, _, _, _, _, _, _, rfl, rfl, rfl, rfl, rfl, rfl, rfl, rfl, rfl⟩
  rw [← hb, ← hnum] at hcollect3
  let y : Bool → Pager → Session := fun txn p => ⟨p.toPagerMem, x0.walPos, txn⟩
  let s1 := s0.store 0 (y false p1) p1
  let s2 := s1.store 0 (y true p1) { p1 with touched := some [], shadow := ∅ }
  let s3 := s2.store 0 (y true p2) p2
  let s4 : System := { s3.store 0 ⟨p2.toPagerMem, (s3.log ++ b.blob).length, false⟩ p3 with
    log := s3.log ++ b.blob
    sharedEnd := some (max (s3.sharedEnd.getD 0) (s3.log ++ b.blob).length)
    history := s3.history ++ [b.pages] }
  let z : Bool → Pager → Session := fun txn p => ⟨p.toPagerMem, (s3.log ++ b.blob).length, txn⟩
  let s5 := s4.store 0 (z true p3) { p3 with touched := some [], shadow := ∅ }
  let s6 := s5.store 0 (z true p4) p4
  let s7 := s6.store 0 (z false p4) p4.rollbackTxn
  let s8 := s7.store 0 (z false p5) p5
  have h1 : s0.step (.get 0 1) = some s1 := by
    have := step_get hlook0 hget1
    rwa [show x0 = ⟨x0.mem, x0.walPos, false⟩ from by rw [← hin0]] at this
  have h2 : s1.step (.begin 0) = some s2 := step_begin (x := y false p1) (AList.lookup_insert _) rfl hnone1
  have h3 : s2.step (.write 0 1 [1]) = some s3 :=
    step_write (x := y true { p1 with touched := some [], shadow := ∅ }) (AList.lookup_insert _) rfl hwrite2
  have h4 : s3.step (.commit 0) = some s4 :=
    step_commit (x := y true p2) b (AList.lookup_insert _) rfl hcollect3 (by rw [hb]; exact List.cons_ne_nil _ _)
  have h5 : s4.step (.begin 0) = some s5 := step_begin (x := z false p3) (AList.lookup_insert _) rfl hnone3
  have h6 : s5.step (.write 0 1 [2]) = some s6 :=
    step_write (x := z true { p3 with touched := some [], shadow := ∅ }) (AList.lookup_insert _) rfl hwrite4
  have h7 : s6.step (.rollback 0) = some s7 := step_rollback (x := z true p4) (AList.lookup_insert _) rfl
  have h8 : s7.step (.get 0 2) = some s8 := step_get (x := z false p4.rollbackTxn) (AList.lookup_insert _) hget5
  have := h 0 1 file [] _ _ _ im6 p6 (Nat.zero_le _) (.cons rfl h0 <| .cons rfl h1 <| .cons rfl h2 <| .cons rfl h3 <|
    .cons rfl h4 <| .cons rfl h5 <| .cons rfl h6 <| .cons rfl h7 <| .cons rfl h8 <| .nil _)
    (AList.lookup_insert _ : s8.sess.lookup 0 = some (z false p5)) rfl hget6
  have hcomm : s8.committed 1 = padTo pageSize [1] := by
    show imageAfter (s0.history ++ [b.pages]).flatten (readPage s0.orig 1) 1 = _
    rw [hhist0, hb]
    rfl
  have h0 := getD_marked
  rw [← hcomm, ← this, him6, getD_readPage, hfile, List.getD_eq_getElem?_getD, List.getElem?_replicate] at h0
  simp [pageSize] at h0

end System

end LeafDb
