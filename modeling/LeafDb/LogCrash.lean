import LeafDb.Base.Run
import LeafDb.WalRecovery

/-!
# Opening, committing and crashing

One session at a time on one data file and one log, as `Database.__init__` and `_commit_locked` use them.
Opening a database replays the log and resets it exactly when the replay applied a batch, so a log that
holds nothing but the torn bytes of a crashed append stays as it is, and the next append goes behind
these bytes, where no later recovery reaches it. As long as every append starts on a log without torn
bytes the data file holds, after every open, the batches whose append completed.
-/

namespace LeafDb

structure CrashState where
  db : Bytes
  log : Bytes
  /-- A session is open. -/
  live : Bool
  /-- History: the batches whose append completed, in order. -/
  completed : List Batch

namespace CrashState

inductive Action
  | open
  | commit (b : Batch)
  /-- The process dies when `kept` bytes of the append of `b` are in the log. -/
  | crash (b : Batch) (kept : Nat)

/-- `Database.__init__`: recover, open the log, reset it when a batch was applied. -/
def reopen (s : CrashState) : Option CrashState :=
  match Wal.recover s.log s.db with
  | .error _ => none
  | .ok (db, applied) =>
    some { s with db := db, log := if 0 < applied then Wal.header else Wal.openLog s.log, live := true }

def step (s : CrashState) : Action → Option CrashState
  | .open => if s.live then none else s.reopen
  | .commit b =>
    if s.live then
      match Wal.appendBatch s.log b.pages b.numPages with
      | .error _ => none
      | .ok log => some { s with log := log, completed := s.completed ++ [b] }
    else none
  | .crash b kept =>
    if s.live ∧ kept ≤ b.blob.length then
      match Wal.appendBatch s.log b.pages b.numPages with
      | .error _ => none
      | .ok log =>
        some { s with
          log := log.take (s.log.length + kept)
          live := false
          completed := if kept = b.blob.length then s.completed ++ [b] else s.completed }
    else none

/-- A closed database with a new log, or a log that is no longer than its header. -/
def init (db log : Bytes) : CrashState := ⟨db, log, false, []⟩

/-- Behind its header the log holds complete batches and nothing else. -/
def Untorn (log : Bytes) : Prop := ∃ bs, log.drop Wal.header.length = blobs bs

/-- Every append starts on a log without torn bytes. -/
def AppendsUntorn (s : CrashState) : Action → Prop
  | .open => True
  | .commit _ => Untorn s.log
  | .crash _ _ => Untorn s.log

/-- The log holds complete batches not applied yet and, only when no session is open or nothing was
applied, torn bytes; the data file has all completed batches before these. -/
structure Inv (db₀ : Bytes) (s : CrashState) : Prop where
  pending : ∃ done bs tail, s.log.drop Wal.header.length = blobs bs ++ tail ∧ Torn tail ∧
    s.completed = done ++ bs ∧ s.db = Batch.applyAll db₀ done
  log_length : s.live → Wal.header.length ≤ s.log.length

variable {db₀ : Bytes} {s t : CrashState}

theorem applyAll_append (db : Bytes) (bs bs' : List Batch) :
    Batch.applyAll db (bs ++ bs') = Batch.applyAll (Batch.applyAll db bs) bs' := by
  simp [Batch.applyAll]

/-- An open applies what is pending. -/
theorem db_open (h : Inv db₀ s) (ht : s.step .open = some t) :
    t.db = Batch.applyAll db₀ t.completed ∧ Inv db₀ t := by
  obtain ⟨done, bs, tail, hlog, htorn, hcomp, hdb⟩ := h.pending
  simp only [step] at ht
  split at ht
  · cases ht
  rw [reopen, Wal.recover_eq hlog htorn] at ht
  simp only [Option.some.injEq] at ht
  subst ht
  have hnew : Batch.applyAll s.db bs = Batch.applyAll db₀ s.completed := by
    rw [hcomp, applyAll_append, hdb]
  refine ⟨hnew, ⟨?_, fun _ => ?_⟩⟩
  · split
    · exact ⟨s.completed, [], [], by simp [Wal.header], Wal.torn_nil, by simp, hnew⟩
    · rename_i hlen
      obtain rfl : bs = [] := by simpa using hlen
      refine ⟨s.completed, [], ?_⟩
      by_cases hl : Wal.header.length ≤ s.log.length
      · exact ⟨tail, by simpa [Wal.openLog, hl] using hlog, htorn, by simp, hnew⟩
      · exact ⟨[], by simp [Wal.openLog, hl], Wal.torn_nil, by simp, hnew⟩
  · show Wal.header.length ≤ (if 0 < bs.length then Wal.header else Wal.openLog s.log).length
    split
    · exact Nat.le_refl _
    · unfold Wal.openLog
      split
      · assumption
      · exact Nat.le_refl _

theorem completed_open (ht : s.step .open = some t) : t.completed = s.completed := by
  simp only [step, reopen] at ht
  split at ht
  · cases ht
  split at ht <;> cases ht
  rfl

theorem torn_take (b : Batch) {kept : Nat} (h : kept < b.blob.length) : Torn (b.blob.take kept) :=
  ⟨b, kept, h, rfl⟩

/-- On a log without torn bytes an append adds its bytes right behind the pending batches. -/
theorem pending_of_untorn (h : Inv db₀ s) (hu : Untorn s.log) :
    ∃ done bs, s.log.drop Wal.header.length = blobs bs ∧ s.completed = done ++ bs ∧
      s.db = Batch.applyAll db₀ done := by
  obtain ⟨done, bs, tail, hlog, htorn, hcomp, hdb⟩ := h.pending
  obtain ⟨bs', hbs'⟩ := hu
  have hsame : blobs bs ++ tail = blobs bs' ++ [] := by rw [← hlog, hbs', List.append_nil]
  have := Wal.blobs_inj hsame htorn Wal.torn_nil
  exact ⟨done, bs, by rw [hlog, this.2, List.append_nil], hcomp, hdb⟩

theorem drop_append_blob (hlive : Wal.header.length ≤ s.log.length) (data : Bytes) :
    (s.log ++ data).drop Wal.header.length = s.log.drop Wal.header.length ++ data :=
  List.drop_append_of_le_length hlive

theorem inv_step (h : Inv db₀ s) {a : Action} (hok : AppendsUntorn s a) (ht : s.step a = some t) : Inv db₀ t := by
  cases a with
  | «open» => exact (db_open h ht).2
  | commit b =>
    obtain ⟨done, bs, hlog, hcomp, hdb⟩ := pending_of_untorn h hok
    simp only [step, Wal.appendBatch_eq] at ht
    split at ht
    swap
    · cases ht
    rename_i hlive
    cases ht
    have hlen := h.log_length hlive
    refine ⟨⟨done, bs ++ [b], [], ?_, Wal.torn_nil, by simp [hcomp], hdb⟩, fun _ => by simp; omega⟩
    rw [drop_append_blob hlen, hlog]
    simp [blobs_cons]
  | crash b kept =>
    obtain ⟨done, bs, hlog, hcomp, hdb⟩ := pending_of_untorn h hok
    simp only [step, Wal.appendBatch_eq] at ht
    split at ht
    swap
    · cases ht
    rename_i hlive
    cases ht
    have hlen := h.log_length hlive.1
    refine ⟨?_, fun hl => by cases hl⟩
    simp only [List.take_length_add_append, drop_append_blob hlen, hlog]
    -- the append completed exactly when all of its bytes are there
    by_cases hk : kept = b.blob.length
    · rw [if_pos hk, hk, List.take_length]
      exact ⟨done, bs ++ [b], [], by simp [blobs_cons], Wal.torn_nil, by simp [hcomp], hdb⟩
    · rw [if_neg hk]
      exact ⟨done, bs, _, rfl, torn_take b (by omega), hcomp, hdb⟩

theorem inv_init (db : Bytes) {log : Bytes} (h : log.length ≤ Wal.header.length) : Inv db (init db log) where
  pending := ⟨[], [], [], by simp [init, List.drop_of_length_le h], Wal.torn_nil, rfl, rfl⟩
  log_length hl := by cases hl

/-- After every open the data file has exactly the batches whose append completed, in order, as long as no
append starts behind torn bytes. -/
theorem open_atomic_of_untorn {db log : Bytes} (hlog : log.length ≤ Wal.header.length) {as : List Action}
    {s t : CrashState} (hrun : Run step AppendsUntorn (init db log) as s) (hopen : s.step .open = some t) :
    t.db = Batch.applyAll db t.completed :=
  (db_open (hrun.invariant (fun _ _ _ h hok hs => inv_step h hok hs) (inv_init db hlog)) hopen).1

theorem step_commit (hs : s.live) (b : Batch) : s.step (.commit b) =
    some { s with log := s.log ++ b.blob, completed := s.completed ++ [b] } := by
  simp only [step, Wal.appendBatch_eq]
  rw [if_pos hs]

theorem step_crash (hs : s.live) {b : Batch} {kept : Nat} (hk : kept < b.blob.length) : s.step (.crash b kept) =
    some { s with log := s.log ++ b.blob.take kept, live := false } := by
  simp only [step, Wal.appendBatch_eq, List.take_length_add_append]
  rw [if_pos ⟨hs, hk.le⟩, if_neg hk.ne]

/-- A session that commits one batch, dies while the log takes another one, and is opened again. -/
theorem open_atomic_of_untorn_onePage :
    ∃ s t, Run step AppendsUntorn (init [] []) [.open, .commit onePage, .crash onePage 5] s ∧
      s.step .open = some t ∧ t.db = Batch.applyAll [] t.completed ∧ t.completed = [onePage] := by
  -- nothing depends on which batch it is
  obtain ⟨b, hb⟩ : ∃ b, b = onePage := ⟨_, rfl⟩
  rw [← hb]
  have hpos := Batch.length_blob_pos b
  have h1 : (init [] []).step .open = some ⟨[], Wal.header, true, []⟩ := rfl
  have h2 := step_commit (s := ⟨[], Wal.header, true, []⟩) rfl b
  have h3 := step_crash (s := ⟨[], Wal.header ++ b.blob, true, [b]⟩) rfl (by omega : 5 < b.blob.length)
  have hblobs : blobs [b] = b.blob := by rw [blobs_cons, blobs_nil, List.append_nil]
  have hu1 : Untorn Wal.header := ⟨[], List.drop_length⟩
  have hu2 : Untorn (Wal.header ++ b.blob) := ⟨[b], by rw [hblobs, List.drop_left]⟩
  have hrun : Run step AppendsUntorn (init [] []) [.open, .commit b, .crash b 5]
      ⟨[], Wal.header ++ b.blob ++ b.blob.take 5, false, [b]⟩ :=
    .cons trivial h1 (.cons hu1 h2 (.cons hu2 h3 (.nil _)))
  have hlog : (Wal.header ++ b.blob ++ b.blob.take 5).drop Wal.header.length = blobs [b] ++ b.blob.take 5 := by
    rw [hblobs, List.append_assoc, List.drop_left]
  have hrec := Wal.recover_eq hlog (torn_take b (by omega)) []
  obtain ⟨t, ht⟩ : ∃ t, step ⟨[], Wal.header ++ b.blob ++ b.blob.take 5, false, [b]⟩ .open = some t := by
    simp only [step, reopen, hrec]
    exact ⟨_, rfl⟩
  exact ⟨_, t, hrun, ht, open_atomic_of_untorn (Nat.zero_le _) hrun ht, completed_open ht⟩

/-- A data file has at least the pages a batch says there are. -/
theorem length_applyBatch_le (db : Bytes) (pages : List (Nat × Bytes)) {numPages : Nat} (h : 0 < numPages) :
    numPages * pageSize ≤ (Wal.applyBatch db pages numPages).length := by
  unfold Wal.applyBatch
  simp only
  split
  · rw [length_writeAt _ _ _ (by simp)]
    have : 0 < numPages * pageSize := Nat.mul_pos h (by decide)
    simp only [List.length_singleton]
    omega
  · omega

/-- One byte of a crashed append makes recovery miss a batch committed after the next open. -/
theorem open_not_atomic :
    ¬ ∀ (db log : Bytes) (as : List Action) (s t : CrashState), log.length ≤ Wal.header.length →
      Run step (fun _ _ => True) (init db log) as s → s.step .open = some t →
      t.db = Batch.applyAll db t.completed := by
  intro h
  obtain ⟨rest, hrest⟩ : ∃ rest, onePage.blob = 76 :: 70 :: 68 :: 66 :: rest := ⟨_, rfl⟩
  have hlen := Batch.length_blob_pos onePage
  let torn : Bytes := Wal.header ++ [76]
  let s1 : CrashState := ⟨[], Wal.header, true, []⟩
  let s2 : CrashState := ⟨[], torn, false, []⟩
  let s3 : CrashState := ⟨[], torn, true, []⟩
  let s4 : CrashState := ⟨[], torn ++ onePage.blob, true, [onePage]⟩
  let s5 : CrashState := ⟨[], torn ++ onePage.blob, false, [onePage]⟩
  let s6 : CrashState := ⟨[], torn ++ onePage.blob, true, [onePage]⟩
  have h1 : (init [] []).step .open = some s1 := rfl
  have h2 : s1.step (.crash onePage 1) = some s2 := by
    rw [step_crash rfl (by omega), hrest]
    rfl
  have h3 : s2.step .open = some s3 := rfl
  have h4 : s3.step (.commit onePage) = some s4 := step_commit rfl onePage
  have h5 : s4.step (.crash onePage 0) = some s5 := by
    rw [step_crash rfl (by omega), List.take_zero, List.append_nil]
  have h6 : s5.step .open = some s6 := by
    -- the byte left behind takes the place of the magic's first one
    have hrec : Wal.recover (torn ++ onePage.blob) [] = .ok ([], 0) := by
      rw [hrest]
      rfl
    have hopen : Wal.openLog (torn ++ onePage.blob) = torn ++ onePage.blob :=
      if_pos (by simp [torn])
    simp only [step, reopen, s5, hrec, s6, hopen]
    rfl
  have hdb := h [] [] _ s5 s6 (Nat.zero_le _) (.cons trivial h1 <| .cons trivial h2 <| .cons trivial h3 <|
    .cons trivial h4 <| .cons trivial h5 <| .nil _) h6
  have hle := length_applyBatch_le [] onePage.pages (Nat.succ_pos 1)
  simp only [s6, Batch.applyAll, List.foldl_cons, List.foldl_nil] at hdb
  rw [show onePage.numPages = 1 + 1 from rfl] at hdb
  rw [← hdb] at hle
  simp [pageSize] at hle

end CrashState

end LeafDb
