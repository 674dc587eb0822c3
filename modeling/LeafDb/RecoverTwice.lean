import LeafDb.Base.Redo
import LeafDb.Base.Result
import LeafDb.WalPrefix

/-!
# Recovery that is interrupted and repeated

What `recover` does to the data file is a sequence of page writes and extensions which the log alone determines
(`recoverOps`). A recovery that dies leaves the file in the middle of this sequence, the last operation possibly in
part; the log is still there, and the next recovery goes through the same sequence again.
-/

namespace LeafDb

namespace Wal

/-- The writes for one committed batch, and the extension that follows them. -/
def batchOps (pages : List (Nat × Bytes)) (numPages : Nat) : List BlindOp :=
  pages.map (fun e => .write (e.1 * pageSize) e.2) ++ [.extend (numPages * pageSize)]

/-- The loop of `recover`: what it does to the data file, and the number of batches or the exception. -/
def replayOps : Nat → Bytes → (AList fun _ : Nat => Bytes) → Nat → List BlindOp × Except PyError Nat
  | 0, _, _, applied => ([], .ok applied)
  | fuel + 1, data, batch, applied =>
    match nextFrame data with
    | none => ([], .ok applied)
    | some (pageNo, payload, rest) =>
      if pageNo = commitPage then
        match unpackU32 payload with
        | .error e => ([], .error e)
        | .ok numPages =>
          let (ops, result) := replayOps fuel rest ∅ (applied + 1)
          (batchOps (sortedItems batch) numPages ++ ops, result)
      else replayOps fuel rest (batch.insert pageNo payload) applied

def recoverOps (log : Bytes) : List BlindOp × Except PyError Nat :=
  if log.length ≤ header.length then ([], .ok 0)
  else replayOps log.length (log.drop header.length) ∅ 0

/-- A run of `recover` on the data file `db` died and left `db'`. -/
def Crashed (log db db' : Bytes) : Prop := BlindOp.Interrupted db (recoverOps log).1 db'

/-! ### `recover` runs its operations -/

theorem run_batchOps (db : Bytes) (pages : List (Nat × Bytes)) (numPages : Nat) :
    BlindOp.run db (batchOps pages numPages) = applyBatch db pages numPages := by
  have hwrites : ∀ db, BlindOp.run db (pages.map fun e => .write (e.1 * pageSize) e.2) = Pager.writePages db pages := by
    induction pages with
    | nil => exact fun _ => rfl
    | cons e pages ih => exact fun db => ih _
  rw [batchOps, BlindOp.run_append, hwrites]
  rfl

theorem replay_eq_run (fuel : Nat) (data db : Bytes) (batch : AList fun _ : Nat => Bytes) (applied : Nat) :
    replay fuel data db batch applied = (replayOps fuel data batch applied).2.map fun n =>
      (BlindOp.run db (replayOps fuel data batch applied).1, n) := by
  induction fuel generalizing data db batch applied with
  | zero => rfl
  | succ fuel ih =>
    rw [replay, replayOps]
    cases nextFrame data with
    | none => rfl
    | some f =>
      obtain ⟨pageNo, payload, rest⟩ := f
      simp only
      split
      · cases unpackU32 payload with
        | error e => rfl
        | ok numPages =>
          simp only
          rw [ih, ← run_batchOps]
          simp only [BlindOp.run_append]
      · exact ih ..

theorem recover_eq_run (log db : Bytes) :
    recover log db = (recoverOps log).2.map fun n => (BlindOp.run db (recoverOps log).1, n) := by
  unfold recover recoverOps
  split
  · rfl
  · exact replay_eq_run ..

/-- Whatever the log, a recovery that ends gives the same after crashed ones. -/
theorem recover_of_crashed {log db db' x : Bytes} {n : Nat} (h : recover log db = .ok (db', n))
    (hx : Relation.ReflTransGen (Crashed log) db x) : recover log x = .ok (db', n) := by
  rw [← h, recover_eq_run, recover_eq_run, BlindOp.run_interrupted hx]

/-- A recovery that ended left what one that dies at the very end leaves. -/
theorem crashed_of_recover {log db db' : Bytes} {n : Nat} (h : recover log db = .ok (db', n)) : Crashed log db db' := by
  rw [recover_eq_run] at h
  obtain ⟨n', -, heq⟩ := map_eq_ok.1 h
  obtain ⟨rfl, rfl⟩ := Prod.mk.inj heq
  exact .after _ [] (List.append_nil _).symm

/-- A log of batches, cut anywhere, is recovered without an exception. -/
theorem exists_recover {ws : List (List (Nat × Bytes) × Nat)} (h : ∀ w ∈ ws, IsBatch w) {log : Bytes}
    (hlog : appendAll header ws = .ok log) (db : Bytes) (k : Nat) : ∃ db' n, recover (log.take k) db = .ok (db', n) := by
  by_cases hk : header.length ≤ k
  · obtain ⟨m, -, -, db', -, hrec, -⟩ := recover_take h hlog db hk
    exact ⟨db', m, hrec⟩
  · refine ⟨db, 0, if_pos ?_⟩
    rw [List.length_take]
    omega

/-- However often recovery of a log of batches is interrupted, and wherever, running it again gives exactly what one
uninterrupted run gives, and running it once more changes nothing. -/
theorem recover_again {ws : List (List (Nat × Bytes) × Nat)} (h : ∀ w ∈ ws, IsBatch w) {log : Bytes}
    (hlog : appendAll header ws = .ok log) (db : Bytes) (k : Nat) :
    ∃ db' n, recover (log.take k) db = .ok (db', n) ∧
      (∀ x, Relation.ReflTransGen (Crashed (log.take k)) db x → recover (log.take k) x = .ok (db', n)) ∧
      recover (log.take k) db' = .ok (db', n) := by
  obtain ⟨db', n, hrec⟩ := exists_recover h hlog db k
  exact ⟨db', n, hrec, fun x hx => recover_of_crashed hrec hx,
    recover_of_crashed hrec (.single (crashed_of_recover hrec))⟩

/-- The first write of the recovery of a log of one batch. -/
theorem recoverOps_marked {log : Bytes} (hlog : appendAll header [([(1, padTo pageSize [1])], 2)] = .ok log) :
    ∃ rest, (recoverOps (log.take 5000)).1 = .write pageSize (padTo pageSize [1]) :: rest := by
  have hlen : (padTo pageSize [1]).length = pageSize := length_padTo (by decide)
  set b : Batch := .single 1 (padTo pageSize [1]) 2 (by decide) hlen (by norm_num)
  have happend : appendBatch header [(1, padTo pageSize [1])] 2 = .ok (header ++ b.blob) := appendBatch_eq header b
  rw [appendAll, happend] at hlog
  obtain rfl : header ++ b.blob = log := Except.ok.inj hlog
  have hdata : b.blob = frameBytes 1 (padTo pageSize [1]) ++ frameBytes commitPage (packBE 4 2) := by
    rw [Batch.blob, show b.pages = [(1, padTo pageSize [1])] from rfl, show b.numPages = 2 from rfl, List.flatMap_singleton]
  have hsize : b.blob.length = 4132 := by
    rw [hdata, List.length_append, length_frameBytes, length_frameBytes, hlen, length_packBE, pageSize]
  have hall : (header ++ b.blob).length = 4140 + 2 := by
    rw [List.length_append, hsize]
    rfl
  rw [List.take_of_length_le (by omega), recoverOps, if_neg (by rw [hall]; decide), hall, List.drop_left, hdata,
    replayOps, nextFrame_append (by norm_num) (by rw [hlen]; exact pageSize_lt)]
  simp only [show (1 : Nat) ≠ commitPage by decide, if_false]
  rw [replayOps, ← List.append_nil (frameBytes commitPage _), nextFrame_append commitPage_lt (length_packed _)]
  simp only [if_true, unpackU32_packBE (show 2 < 256 ^ 4 by norm_num)]
  exact ⟨_, rfl⟩

/-- Recovery dies when it has written one byte of the page of a log of one batch, and is run twice then. -/
theorem recover_again_marked : ∃ log x db' n, appendAll header [([(1, padTo pageSize [1])], 2)] = .ok log ∧
    Crashed (log.take 5000) [] x ∧ x.length = pageSize + 1 ∧ recover (log.take 5000) [] = .ok (db', n) ∧
    recover (log.take 5000) x = .ok (db', n) ∧ recover (log.take 5000) db' = .ok (db', n) := by
  obtain ⟨log, hlog⟩ := appendAll_marked
  obtain ⟨rest, hops⟩ := recoverOps_marked hlog
  obtain ⟨db', n, hrec, hagain, htwice⟩ := recover_again (fun w hw => List.mem_singleton.1 hw ▸ isBatch_marked) hlog [] 5000
  have hcrash := BlindOp.Interrupted.during [] _ rest hops (BlindOp.between_take _ (pageSize + 1))
  refine ⟨log, _, db', n, hlog, hcrash, ?_, hrec, hagain _ (.single hcrash), htwice⟩
  rw [List.length_take, BlindOp.length_apply, BlindOp.reach, if_neg (by simp [padTo]),
    length_padTo (by decide)]
  rfl

end Wal

end LeafDb
