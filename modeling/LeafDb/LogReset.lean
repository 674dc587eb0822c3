import LeafDb.Freshness

/-!
# Resets of the log

Three steps write a fresh header over the log: a checkpoint, the close of the last session, and an open whose
recovery applied a batch. The first two look whether another session is open, the third does not. As long as an
open that finds batches finds no other session, every position stays at a batch boundary of the log.
-/

namespace LeafDb

/-- Between complete batches of the log, or behind the last one. -/
def AtBoundary (log : Bytes) (pos : Nat) : Prop :=
  ∃ before behind, log.drop Wal.header.length = blobs (before ++ behind) ∧
    pos = Wal.header.length + (blobs before).length

theorem AtBoundary.advance {log : Bytes} {pos : Nat} {adopted unread : List Batch} (h : AtBoundary log pos)
    (hpos : log.drop pos = blobs (adopted ++ unread)) : AtBoundary log (pos + (blobs adopted).length) := by
  obtain ⟨before, behind, hlog, rfl⟩ := h
  have hbehind : blobs behind ++ [] = blobs (adopted ++ unread) ++ [] := by
    rw [← hpos, ← List.drop_drop, hlog, blobs_append, List.drop_left]
  obtain rfl := (Wal.blobs_inj hbehind Wal.torn_nil Wal.torn_nil).1
  exact ⟨before ++ adopted, unread, by rw [hlog, List.append_assoc],
    by rw [blobs_append, List.length_append, Nat.add_assoc]⟩

theorem AtBoundary.append {log : Bytes} {pos : Nat} (h : AtBoundary log pos) (hlen : Wal.header.length ≤ log.length)
    (b : Batch) : AtBoundary (log ++ b.blob) pos := by
  obtain ⟨before, behind, hlog, rfl⟩ := h
  refine ⟨before, behind ++ [b], ?_, rfl⟩
  rw [List.drop_append_of_le_length hlen, hlog, ← List.append_assoc, blobs_append (before ++ behind), blobs_cons,
    blobs_nil, List.append_nil]

namespace System
variable {s t : System} {i : Nat} {x : Session}

/-- The action calls `WAL.reset`. -/
def resets (s : System) : Action → Bool
  | .open _ _ => match Wal.recover s.log s.file with
    | .error _ => false
    | .ok (_, applied) => 0 < applied
  | .checkpoint _ => true
  | .close i checkpoint => checkpoint && s.alone i
  | _ => false

/-- Every session's position is at a batch boundary of the log. -/
structure Placed (s : System) : Prop where
  sound : Sound s
  boundary : ∀ i x, s.sess.lookup i = some x → AtBoundary s.log x.walPos

theorem boundary_store (h : Placed s) {y : Session} {p : Pager} (hb : AtBoundary s.log y.walPos) :
    ∀ k z, (s.store i y p).sess.lookup k = some z → AtBoundary s.log z.walPos := by
  intro k z hz
  rw [lookup_store] at hz
  split at hz
  · cases hz
    exact hb
  · exact h.boundary k z hz

theorem boundary_header (log : Bytes) (h : log.length = Wal.header.length) : AtBoundary log log.length :=
  ⟨[], [], by rw [← h, List.drop_length]; rfl, by simpa using h⟩

theorem boundary_checkpoint {x : Session} {p : Pager} (halone : s.alone i = true) :
    ∀ k z, (s.store i { x with walPos := Wal.header.length } p).sess.lookup k = some z → AtBoundary Wal.header z.walPos := by
  intro k z hz
  rw [lookup_store] at hz
  split at hz
  · cases hz
    exact boundary_header Wal.header rfl
  · rw [(alone_iff s i).1 halone k ‹_›] at hz
    cases hz

theorem placed_openFiles {cacheSize : Nat} (h : Placed s) (hok : OpenAlone s (.open i cacheSize))
    (ht : s.openFiles i cacheSize = some t) : Placed t := by
  refine ⟨sound_openFiles h.sound hok ht, ?_⟩
  obtain ⟨hc, pre, pend, log, -, -, -, -, hlen, hlog, rfl⟩ := openFiles_cases h.sound hok ht
  intro k z hz
  change (s.store i _ _).sess.lookup k = some z at hz
  rw [lookup_store] at hz
  split at hz
  · cases hz
    exact boundary_header log hlen
  · rcases hlog with rfl | hk
    · exact h.boundary k z hz
    · rw [lookup_of_keys hk] at hz
      cases hz

theorem placed_get {n : Nat} (h : Placed s) (ht : s.get i n = some t) : Placed t := by
  refine ⟨sound_get h.sound ht, ?_⟩
  obtain ⟨x, im, p, hx, -, rfl⟩ := get_cases ht
  exact boundary_store h (h.boundary i x hx)

theorem placed_step {a : Action} (h : Placed s) (hok : OpenAlone s a) (ht : s.step a = some t) : Placed t := by
  refine ⟨sound_step h.sound hok ht, ?_⟩
  cases a with
  | «open» i cacheSize =>
    obtain ⟨u, hu, ht⟩ := openSession_cases ht
    exact (placed_get (placed_openFiles h hok hu) ht).boundary
  | refresh i reads =>
    obtain ⟨x, unread, hx, htr, ⟨-, rfl⟩ | ⟨-, -, e, -, rfl⟩ | ⟨-, r, hr, -, rfl⟩⟩ := refresh_cases h.sound ht
    · exact h.boundary
    · exact h.boundary
    obtain ⟨adopted, unread', rfl, hpos, -⟩ := Pager.adoptAll_induct (P := fun _ _ => True)
      (fun _ _ _ _ _ _ _ _ => trivial) (fun _ _ _ _ => trivial) (Pager.adoptsOk_of_forall (E := fun _ _ => True) (fun _ _ => trivial) (Wal.located x.walPos unread) reads _)
      trivial (p := s.pagerOf x)
    rw [← hr] at hpos
    refine boundary_store (y := { x with walPos := r.2.1 }) h ?_
    show AtBoundary s.log r.2.1
    rw [hpos]
    exact (h.boundary i x hx).advance htr.position
  | get i n => exact (placed_get h ht).boundary
  | begin i =>
    obtain ⟨x, hx, -, -, rfl⟩ := begin_cases ht
    exact boundary_store (y := { x with inTxn := true }) h (h.boundary i x hx)
  | write i n data =>
    obtain ⟨x, p, hx, -, -, rfl⟩ := write_cases ht
    exact boundary_store h (h.boundary i x hx)
  | allocate i =>
    obtain ⟨x, hx, -, rfl⟩ := allocate_cases ht
    exact boundary_store h (h.boundary i x hx)
  | commit i =>
    obtain ⟨x, hx, -, ⟨-, rfl⟩ | ⟨b, -, -, -, rfl⟩⟩ := commit_cases h.sound ht
    · exact boundary_store (y := { x with inTxn := false }) h (h.boundary i x hx)
    obtain ⟨unread, htr⟩ := h.sound.tracks i x hx
    obtain ⟨pre, pend, -, hlog⟩ := h.sound.pending
    have hlen := htr.header_le.trans htr.pos_le
    intro k z hz
    change (s.store i _ _).sess.lookup k = some z at hz
    rw [lookup_store] at hz
    split at hz
    · cases hz
      have hpend := congrArg List.length hlog
      rw [List.length_drop] at hpend
      refine ⟨pend ++ [b], [], ?_, ?_⟩
      · show (s.log ++ b.blob).drop _ = _
        rw [List.drop_append_of_le_length hlen, hlog, List.append_nil, blobs_append, blobs_cons, blobs_nil, List.append_nil]
      · show (s.log ++ b.blob).length = _
        rw [List.length_append, blobs_append, List.length_append, blobs_cons, blobs_nil, List.append_nil]
        omega
    · exact (h.boundary k z hz).append hlen b
  | rollback i =>
    obtain ⟨x, hx, -, rfl⟩ := rollback_cases ht
    exact boundary_store (y := { x with inTxn := false }) h (h.boundary i x hx)
  | checkpoint i =>
    obtain ⟨x, p, hx, -, halone, -, rfl⟩ := checkpoint_cases ht
    exact boundary_checkpoint halone
  | close i checkpoint =>
    obtain ⟨x, s1, s2, hx, h1, h2, h3⟩ := close_cases ht
    obtain ⟨y, p, -, -, rfl⟩ := drop_cases h3
    have hs1 : ∀ k z, s1.sess.lookup k = some z → AtBoundary s1.log z.walPos := by
      rcases h1 with ⟨-, h1⟩ | ⟨-, rfl⟩
      · obtain ⟨z, hz, -, rfl⟩ := rollback_cases h1
        exact boundary_store (y := { z with inTxn := false }) h (h.boundary i z hz)
      · exact h.boundary
    have hs2 : ∀ k z, s2.sess.lookup k = some z → AtBoundary s2.log z.walPos := by
      rcases h2 with ⟨-, h2⟩ | ⟨-, rfl⟩
      · obtain ⟨z, q, -, -, halone, -, rfl⟩ := checkpoint_cases h2
        exact boundary_checkpoint halone
      · exact hs1
    intro k z hz
    change (s2.sess.erase i).lookup k = some z at hz
    by_cases hk : k = i
    · subst hk
      rw [AList.lookup_erase] at hz
      cases hz
    · rw [AList.lookup_erase_ne hk] at hz
      exact hs2 k z hz

theorem placed_init (file : Bytes) {log : Bytes} (h : log.length ≤ Wal.header.length) : Placed (init file log) where
  sound := sound_init file h
  boundary i x hx := by cases hx

/-- A step that resets the log finds no other session open. -/
theorem alone_of_resets {a : Action} (h : Sound s) (hok : OpenAlone s a) (ht : s.step a = some t)
    (hreset : s.resets a = true) : ∀ k, k ≠ a.actor → s.sess.lookup k = none := by
  intro k hk
  cases a with
  | «open» i cacheSize =>
    obtain ⟨u, hu, -⟩ := openSession_cases ht
    obtain ⟨hc, pre, pend, log, -, -, hpend, hempty, -⟩ := openFiles_cases h hok hu
    rcases hempty with rfl | hkeys
    · simp only [resets, Wal.recover_eq (show _ = blobs [] ++ [] from hpend) Wal.torn_nil] at hreset
      cases hreset
    · exact lookup_of_keys hkeys k
  | checkpoint i =>
    obtain ⟨x, p, -, -, halone, -, -⟩ := checkpoint_cases ht
    exact (alone_iff s i).1 halone k hk
  | close i checkpoint =>
    exact (alone_iff s i).1 (Bool.and_eq_true_iff.1 hreset).2 k hk
  | refresh | get | begin | write | allocate | commit | rollback => cases hreset

/-- As long as every open that finds batches in the log finds no other session, the log is reset under no open
session, and every open session's position is at a batch boundary of the log. -/
theorem atBoundary_of_openAlone {file log : Bytes} (hlog : log.length ≤ Wal.header.length) {as : List Action}
    (hrun : Run step OpenAlone (init file log) as s) :
    (∀ i x, s.sess.lookup i = some x → x.walPos ≤ s.log.length ∧ AtBoundary s.log x.walPos) ∧
      ∀ a t, OpenAlone s a → s.step a = some t → s.resets a = true → ∀ k, k ≠ a.actor → s.sess.lookup k = none := by
  have h : Placed s := hrun.invariant (fun _ _ _ h hok ht => placed_step h hok ht) (placed_init file hlog)
  refine ⟨fun i x hx => ?_, fun a t hok ht hreset => alone_of_resets h.sound hok ht hreset⟩
  obtain ⟨unread, htr⟩ := h.sound.tracks i x hx
  exact ⟨htr.pos_le, h.boundary i x hx⟩

/-- Two sessions open, one commits, the other one adopts the batch. -/
theorem atBoundary_of_openAlone_marked : ∃ s x, Run step OpenAlone (init [] [])
      [.open 0 4, .open 1 4, .refresh 0 [], .begin 0, .write 0 1 [1], .commit 0, .refresh 1 []] s ∧
    s.sess.lookup 1 = some x ∧ x.walPos ≤ s.log.length ∧ AtBoundary s.log x.walPos := by
  obtain ⟨s, -, y, hrun, -, -, -, hy, -⟩ := exists_refreshed [] 3 (by decide)
  have hrun := hrun.mono fun _ _ h => (FreshOk.of_plain h).openAlone
  exact ⟨s, y, hrun, hy, (atBoundary_of_openAlone (Nat.zero_le _) hrun).1 1 y hy⟩

/-- A third session that opens applies the committed batch and resets the log under the other two. -/
theorem resets_alone_fails :
    ¬ ∀ (file log : Bytes) (as : List Action) (s : System), log.length ≤ Wal.header.length →
      Run step (fun _ _ => True) (init file log) as s →
      (∀ i x, s.sess.lookup i = some x → x.walPos ≤ s.log.length ∧ AtBoundary s.log x.walPos) ∧
        ∀ a t, s.step a = some t → s.resets a = true → ∀ k, k ≠ a.actor → s.sess.lookup k = none := by
  intro h
  obtain ⟨s, x, y, hrun, -, hfile, hx, -, -, hcomm, -, -, -, -, -, -, -, hnone⟩ := exists_refreshed [] 3 (by decide)
  have hcur : Current s := (hrun.mono fun _ _ => FreshOk.of_plain).invariant
    (fun _ _ _ h hok ht => current_step h hok ht) (current_init [] (Nat.zero_le _))
  obtain ⟨pre, pend, -, hpend⟩ := hcur.sound.pending
  have hpos : 0 < pend.length := by
    rw [List.length_pos_iff]
    rintro rfl
    -- the data file is still empty
    have := hcur.file_eq 1 (not_behind hpend 1)
    rw [hcomm, if_pos rfl, hfile] at this
    have h0 := getD_marked
    rw [← this, getD_readPage] at h0
    cases h0
  have hrec := Wal.recover_eq (hpend.trans (List.append_nil _).symm) Wal.torn_nil s.file
  obtain ⟨t, z, ht, -⟩ := exists_open_of_recover (show 0 < 4 by decide) (hnone 2 (by decide) (by decide)) hrec
  have hreset : s.resets (.open 2 4) = true := by
    show (match Wal.recover s.log s.file with
      | .error _ => false
      | .ok (_, applied) => decide (0 < applied)) = true
    rw [hrec]
    exact decide_eq_true hpos
  have := (h [] [] _ s (Nat.zero_le _) (hrun.mono fun _ _ _ => trivial)).2 _ t ht hreset 0 (by decide)
  rw [hx] at this
  cases this

end System

end LeafDb
