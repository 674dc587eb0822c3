import LeafDb.Base.Run
import LeafDb.Committed

/-!
# Sessions on one path (`engine.py`)

A `System` is what the `Database` objects opened on one path share (the data file, the log, the published
log end) with the open sessions. An action is one call a session makes while it holds its lock; the reads
of a statement are single `get` actions, so they are interleaved in every way with the other sessions'
actions. Reads and writes of files take effect at once (the buffers of Python's file objects are not part
of the model). `history`, `orig` and `refreshed` record the past and are read by no action.
-/

namespace LeafDb

/-- What a `Database` object holds of the pages. -/
structure Session where
  mem : PagerMem
  walPos : Nat
  inTxn : Bool

structure System where
  file : Bytes
  log : Bytes
  /-- `_shared_wal_end[path]`. -/
  sharedEnd : Option Nat
  /-- `_sessions[path]`. -/
  sess : AList fun _ : Nat => Session
  /-- History: the page images of every batch committed, in order. -/
  history : List (List (Nat × Bytes))
  /-- History: the data file at the beginning. -/
  orig : Bytes
  /-- History: the session whose `refresh_from_wal` was the last action, if it went through all batches. -/
  refreshed : Option Nat

namespace Pager

/-- `refresh_from_wal` takes over one image. -/
def adoptImage (p : Pager) (e : Nat × Bytes) : Pager :=
  let (data, p) := p.newImage e.2
  { p with pool := (p.pool.put e.1 data false).discardDirty e.1 }

/-- `refresh_from_wal` takes over the images of one batch. -/
def adopt (p : Pager) (images : List (Nat × Bytes)) (numPages : Nat) : Pager :=
  let p := images.foldl adoptImage p
  if p.numPages < numPages then { p with numPages := numPages } else p

/-- Reads of the pages `ns` until one raises. -/
def getAll : Pager → List Nat → Pager × Bool
  | p, [] => (p, true)
  | p, n :: ns =>
    match p.get n with
    | .error _ => (p, false)
    | .ok (_, p) => getAll p ns

/-- The loop of `refresh_from_wal`. `reads` are the pages `Catalog.load` and `_rebuild_indexes` read after
each batch; the flag says that no read raised. -/
def adoptAll : List (Nat × List (Nat × Bytes) × Nat) → List (List Nat) → Pager → Nat → Pager × Nat × Bool
  | [], _, p, pos => (p, pos, true)
  | (newPos, images, numPages) :: batches, reads, p, _ =>
    match (p.adopt images numPages).getAll (reads.headD []) with
    | (p, false) => (p, newPos, false)
    | (p, true) => adoptAll batches reads.tail p newPos

end Pager

namespace System

inductive Action
  | open (i cacheSize : Nat)
  | refresh (i : Nat) (reads : List (List Nat))
  | get (i n : Nat)
  | begin (i : Nat)
  | write (i n : Nat) (data : Bytes)
  | allocate (i : Nat)
  | commit (i : Nat)
  | rollback (i : Nat)
  | checkpoint (i : Nat)
  | close (i : Nat) (checkpoint : Bool)

/-- The session that acts. -/
def Action.actor : Action → Nat
  | .open i _ | .refresh i _ | .get i _ | .begin i | .write i _ _ | .allocate i | .commit i | .rollback i
  | .checkpoint i | .close i _ => i

/-- The session's pager on the shared data file. -/
def pagerOf (s : System) (x : Session) : Pager := { x.mem with file := s.file }

/-- The system after session `i` went on as `x` with pager `p`. -/
def store (s : System) (i : Nat) (x : Session) (p : Pager) : System :=
  { s with file := p.file, sess := s.sess.insert i { x with mem := p.toPagerMem }, refreshed := none }

/-- No session but `i` is open. -/
def alone (s : System) (i : Nat) : Bool := s.sess.keys.all (· == i)

/-- `Database.__init__` up to `Catalog.load`: recovery, the pager, the log. -/
def openFiles (s : System) (i cacheSize : Nat) : Option System :=
  if h : 0 < cacheSize ∧ i ∉ s.sess then
    match Wal.recover s.log s.file with
    | .error _ => none
    | .ok (file, applied) =>
      let p := Pager.openFile file cacheSize h.1
      let log := if 0 < applied then Wal.header else Wal.openLog s.log
      some { s.store i ⟨p.toPagerMem, log.length, false⟩ p with log := log }
  else none

/-- `refresh_from_wal`. -/
def refresh (s : System) (i : Nat) (reads : List (List Nat)) : Option System :=
  match s.sess.lookup i with
  | none => none
  | some x =>
    if x.inTxn then some { s with refreshed := none }
    else
      let stop := s.sharedEnd.getD x.walPos
      if stop ≤ x.walPos then some { s with sharedEnd := some stop, refreshed := some i }
      else
        match Wal.readBatchesFrom s.log x.walPos stop with
        | .error _ => none
        | .ok batches =>
          match (s.pagerOf x).adoptAll batches reads x.walPos with
          | (p, pos, done) =>
            some { s.store i { x with walPos := pos } p with refreshed := if done then some i else none }

def get (s : System) (i n : Nat) : Option System :=
  match s.sess.lookup i with
  | none => none
  | some x =>
    match (s.pagerOf x).get n with
    | .error _ => none
    | .ok (_, p) => some (s.store i x p)

/-- `Database.__init__`. `Catalog.load` reads page 0, so an open leaves that page in the pool (and a pool of
capacity 0 makes the read raise). -/
def openSession (s : System) (i cacheSize : Nat) : Option System :=
  (s.openFiles i cacheSize).bind fun s => s.get i 0

def begin (s : System) (i : Nat) : Option System :=
  match s.sess.lookup i with
  | none => none
  | some x =>
    if x.inTxn then none
    else
      match (s.pagerOf x).beginTxn with
      | .error _ => none
      | .ok p => some (s.store i { x with inTxn := true } p)

/-- Statements write in a transaction only. -/
def write (s : System) (i n : Nat) (data : Bytes) : Option System :=
  match s.sess.lookup i with
  | none => none
  | some x =>
    if x.inTxn then
      match (s.pagerOf x).write n data with
      | .error _ => none
      | .ok p => some (s.store i x p)
    else none

def allocate (s : System) (i : Nat) : Option System :=
  match s.sess.lookup i with
  | none => none
  | some x => if x.inTxn then some (s.store i x (s.pagerOf x).allocate.2) else none

/-- `_commit_locked`. -/
def commit (s : System) (i : Nat) : Option System :=
  match s.sess.lookup i with
  | none => none
  | some x =>
    if x.inTxn then
      match (s.pagerOf x).collectCommit with
      | .error _ => none
      | .ok (images, numPages, p) =>
        if images.isEmpty then some (s.store i { x with inTxn := false } p)
        else
          match Wal.appendBatch s.log images numPages with
          | .error _ => none
          | .ok log =>
            some { s.store i { x with inTxn := false, walPos := log.length } p with
              log := log
              sharedEnd := some (max (s.sharedEnd.getD 0) log.length)
              history := s.history ++ [images] }
    else none

/-- `_rollback_locked`, as far as it is about pages. -/
def rollback (s : System) (i : Nat) : Option System :=
  match s.sess.lookup i with
  | none => none
  | some x => if x.inTxn then some (s.store i { x with inTxn := false } (s.pagerOf x).rollbackTxn) else none

/-- `_checkpoint_locked`. -/
def checkpoint (s : System) (i : Nat) : Option System :=
  match s.sess.lookup i with
  | none => none
  | some x =>
    if x.inTxn = false ∧ s.alone i then
      match (s.pagerOf x).flush with
      | .error _ => none
      | .ok p => some { s.store i { x with walPos := Wal.header.length } p with log := Wal.header }
    else none

/-- The end of `_close_locked`: the session is no longer registered and its pager is closed. -/
def drop (s : System) (i : Nat) : Option System :=
  match s.sess.lookup i with
  | none => none
  | some x =>
    match (s.pagerOf x).flush with
    | .error _ => none
    | .ok p => some { s with file := p.file, sess := s.sess.erase i, refreshed := none }

/-- `_close_locked`. -/
def close (s : System) (i : Nat) (checkpoint : Bool) : Option System :=
  match s.sess.lookup i with
  | none => none
  | some x =>
    (if x.inTxn then s.rollback i else some s).bind fun s =>
      (if checkpoint ∧ s.alone i then s.checkpoint i else some s).bind fun s => s.drop i

def step (s : System) : Action → Option System
  | .open i cacheSize => s.openSession i cacheSize
  | .refresh i reads => s.refresh i reads
  | .get i n => s.get i n
  | .begin i => s.begin i
  | .write i n data => s.write i n data
  | .allocate i => s.allocate i
  | .commit i => s.commit i
  | .rollback i => s.rollback i
  | .checkpoint i => s.checkpoint i
  | .close i checkpoint => s.close i checkpoint

/-- No session has been opened yet; the log is new, or missing. -/
def init (file log : Bytes) : System := ⟨file, log, none, ∅, [], file, none⟩

/-- The image of page `n` in the last committed batch that has it, else in the data file of the beginning. -/
def committed (s : System) (n : Nat) : Bytes := imageAfter s.history.flatten (readPage s.orig n) n

end System

end LeafDb
