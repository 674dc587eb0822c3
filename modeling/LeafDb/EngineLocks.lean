import LeafDb.Base.Locks

/-!
# The locks of the engine

Threads that call the methods of `Database` objects, shared or not, as far as their locks go: `_lock` of the session, the
writer lock of the path and `_registry_lock`. An operation may raise and a test may come out either way. No thread waits for
ever because of the others (`progress_of_calls`), and as long as a thread has the lock of a session or of the writers of a
path nobody else works on that session or writes the log of that path (`exclusive_of_calls`).
-/

namespace LeafDb

namespace Engine

open Locks

/-- A `Database` object and its path. -/
structure Db where
  id : Nat
  path : String
deriving DecidableEq

inductive Lock
  | session (db : Db)
  | writer (path : String)
  | registry
deriving DecidableEq

inductive Test
  | fileExists (db : Db)
  | applied (db : Db)
  | isOpen (db : Db)
  | inTxn (db : Db)
  | sharedEndNone (db : Db)
  | nothingNew (db : Db)
  | moreBatches (db : Db)
  | others (db : Db)
  | checkpointWanted
  | cached (db : Db)
  | moreStmts
  | isBegin
  | isCommit
  | isRollback
  | isWrite
  | isSelect
  | busy (db : Db)
  | changed (db : Db)

/-- The operations between which another thread may run. -/
inductive Op
  | createFile (db : Db)
  | recover (db : Db)
  | openFiles (db : Db)
  | resetRecovered (db : Db)
  | register (db : Db)
  | rebuildIndexes (db : Db)
  | sharedEnd (db : Db)
  | setSharedEnd (db : Db)
  | readBatches (db : Db)
  | adopt (db : Db)
  | parse (db : Db)
  | cacheStmt (db : Db)
  | work (db : Db)
  | beginTxn (db : Db)
  | collectCommit (db : Db)
  | appendBatch (db : Db)
  | endTxn (db : Db)
  | rollbackTxn (db : Db)
  | listOthers (db : Db)
  | flush (db : Db)
  | reset (db : Db)
  | markClosed (db : Db)
  | unregister (db : Db)
  | closeFiles (db : Db)

abbrev Method := Code Lock Test Op

/-! ### The methods -/

/-- `Database.__init__`. -/
def init (db : Db) : Method := .block [
  .ite (.fileExists db) .skip (.act (.createFile db)),
  .act (.recover db),
  .act (.openFiles db),
  .ite (.applied db) (.act (.resetRecovered db)) .skip,
  .locked .registry (.act (.register db)),
  .act (.rebuildIndexes db)]

/-- The batches that the log has beyond `_wal_pos`, one by one. -/
def adoptBatches (db : Db) : Method := .seq (.act (.readBatches db)) (.loop (.moreBatches db) (.act (.adopt db)))

/-- `Database.refresh_from_wal`. -/
def refreshFromWal (db : Db) : Method :=
  .ite (.isOpen db)
    (.ite (.inTxn db) .skip
      (.seq (.act (.sharedEnd db))
        (.ite (.sharedEndNone db)
          (.seq (.locked .registry (.act (.setSharedEnd db))) (adoptBatches db))
          (.ite (.nothingNew db) .skip (adoptBatches db)))))
    .skip

/-- `Database._begin_locked`. -/
def beginLocked (db : Db) : Method := .ite (.inTxn db) .throw (.act (.beginTxn db))

/-- `Database.begin`. -/
def begin (db : Db) : Method := .locked (.session db) (beginLocked db)

/-- `Database._commit_locked`. -/
def commitLocked (db : Db) : Method :=
  .ite (.inTxn db)
    (.seq
      (.locked (.writer db.path)
        (.seq (.act (.collectCommit db))
          (.ite (.changed db) (.seq (.act (.appendBatch db)) (.locked .registry (.act (.setSharedEnd db)))) .skip)))
      (.act (.endTxn db)))
    .throw

/-- `Database.commit`. -/
def commit (db : Db) : Method := .locked (.session db) (commitLocked db)

/-- `Database._rollback_locked`. -/
def rollbackLocked (db : Db) : Method := .ite (.inTxn db) (.act (.rollbackTxn db)) .throw

/-- `Database.rollback`. -/
def rollback (db : Db) : Method := .locked (.session db) (rollbackLocked db)

/-- A statement or a bulk insertion: any number of accesses to the pages, the catalog and the indexes of the session. -/
def working (db : Db) : Method := .loop (.busy db) (.act (.work db))

/-- `Database.bulk_insert`. -/
def bulkInsert (db : Db) : Method :=
  .locked (.session db)
    (.ite (.inTxn db) (working db)
      (.locked (.writer db.path)
        (.seq (beginLocked db) (.attempt (working db) (.seq (rollbackLocked db) .throw) (commitLocked db)))))

/-- `Database._checkpoint_locked`. -/
def checkpointLocked (db : Db) : Method :=
  .ite (.inTxn db) .throw
    (.seq (.locked .registry (.act (.listOthers db)))
      (.ite (.others db) .throw (.seq (.act (.flush db)) (.act (.reset db)))))

/-- `Database.checkpoint`. -/
def checkpoint (db : Db) : Method := .locked (.session db) (checkpointLocked db)

/-- `Database._close_locked`. -/
def closeLocked (db : Db) : Method :=
  .ite (.isOpen db)
    (.block [
      .ite (.inTxn db) (rollback db) .skip,
      .final
        (.ite .checkpointWanted (.seq (.act (.listOthers db)) (.ite (.others db) .skip (checkpoint db))) .skip)
        (.seq (.act (.markClosed db)) (.locked .registry (.act (.unregister db)))),
      .act (.closeFiles db)])
    .skip

/-- `Database.close`. -/
def close (db : Db) : Method := .locked (.session db) (closeLocked db)

/-- `Database._dispatch`. -/
def dispatch (db : Db) : Method := working db

/-- `Database._run_one`. -/
def runOne (db : Db) : Method :=
  .ite .isBegin (begin db) <| .ite .isCommit (commit db) <| .ite .isRollback (rollback db) <|
  .ite (.inTxn db) (.ite .isWrite (.locked (.writer db.path) (dispatch db)) (dispatch db)) <|
  .ite .isSelect (dispatch db) <|
  .locked (.writer db.path) (.seq (begin db) (.attempt (dispatch db) (.seq (rollback db) .throw) (commit db)))

/-- `Database.execute_script`. -/
def executeScript (db : Db) : Method :=
  .locked (.session db) (.block [
    .ite (.inTxn db) .skip (refreshFromWal db),
    .act (.parse db),
    .loop .moreStmts (runOne db)])

/-- `Database._execute_locked`. -/
def executeLocked (db : Db) : Method :=
  .seq (.ite (.inTxn db) .skip (refreshFromWal db))
    (.ite (.cached db) (.seq (.act (.cacheStmt db)) (runOne db))
      (.attempt (.act (.parse db)) (executeScript db) (.seq (.act (.cacheStmt db)) (runOne db))))

/-- `Database.execute`. -/
def execute (db : Db) : Method := .locked (.session db) (executeLocked db)

/-! ### The threads -/

/-- A call of a method of a session. -/
inductive Call
  | refresh
  | execute
  | executeScript
  | bulkInsert
  | begin
  | commit
  | rollback
  | checkpoint
  | close

def Call.code (db : Db) : Call → Method
  | refresh => refreshFromWal db
  | execute => Engine.execute db
  | executeScript => Engine.executeScript db
  | bulkInsert => Engine.bulkInsert db
  | begin => Engine.begin db
  | commit => Engine.commit db
  | rollback => Engine.rollback db
  | checkpoint => Engine.checkpoint db
  | close => Engine.close db

/-- What a thread does with a session: `together` is some calls `with db._lock`. -/
inductive Task
  | connect (db : Db)
  | call (db : Db) (c : Call)
  | together (db : Db) (cs : List Call)

def Task.code : Task → Method
  | connect db => init db
  | call db c => c.code db
  | together db cs => .locked (.session db) (.block (cs.map (Call.code db)))

/-- The tasks of a thread, which goes on after an exception or does not. -/
def program (tasks : List Task) : Method := .block (tasks.map fun t => .attempt t.code .skip .skip)

/-! ### The discipline -/

/-- The lock of the session first, then that of the writers, then that of the registry. -/
def Lock.rank : Lock → Nat
  | session _ => 0
  | writer _ => 1
  | registry => 2

/-- `RLock` or `Lock`. -/
def Lock.reentrant : Lock → Bool
  | session _ => true
  | writer _ => true
  | registry => false

/-- The locks under which an operation is done; a new session has none yet. -/
@[simp] def Op.needs : Op → List Lock
  | createFile _ | recover _ | openFiles _ | resetRecovered _ | rebuildIndexes _ => []
  | sharedEnd _ => []
  | register _ | unregister _ | setSharedEnd _ => [.registry]
  | collectCommit db | appendBatch db => [.session db, .writer db.path]
  | readBatches db | adopt db | parse db | cacheStmt db | work db | beginTxn db | endTxn db | rollbackTxn db | listOthers db
  | flush db | reset db | markClosed db | closeFiles db => [.session db]

def discipline : Discipline Lock Op := ⟨Lock.reentrant, Lock.rank, Op.needs⟩

/-- The order of the locks alone. -/
def order : Discipline Lock Op := { discipline with needs := fun _ => [] }

/-! ### The methods obey -/

/-- The locks with which a method of the session calls another one. -/
structure Under (db : Db) (hs : List Lock) : Prop where
  session : .session db ∈ hs
  within : ∀ l ∈ hs, l = .session db ∨ l = .writer db.path

/-- A program that may be run with the lock of the session, and maybe that of the writers. -/
def Proper (db : Db) (c : Method) : Prop := ∀ hs, Under db hs → c.Obeys discipline hs

variable {db : Db} {hs : List Lock} {c d e : Method} {b : Test}

theorem under_session : Under db [.session db] := ⟨List.mem_singleton_self _, by simp⟩

namespace Under

theorem cons (h : Under db hs) {l : Lock} (hl : l = .session db ∨ l = .writer db.path) : Under db (l :: hs) where
  session := List.mem_cons_of_mem _ h.session
  within := List.forall_mem_cons.2 ⟨hl, h.within⟩

theorem mayTake_session (h : Under db hs) : discipline.MayTake hs (.session db) := .inl ⟨h.session, rfl⟩

theorem mayTake_writer (h : Under db hs) : discipline.MayTake hs (.writer db.path) := by
  by_cases hw : Lock.writer db.path ∈ hs
  · exact .inl ⟨hw, rfl⟩
  · refine .inr ?_
    intro l hl
    rcases h.within l hl with rfl | rfl
    · exact Nat.zero_lt_one
    · exact absurd hl hw

theorem mayTake_registry (h : Under db hs) : discipline.MayTake hs .registry := by
  refine .inr ?_
  intro l hl
  rcases h.within l hl with rfl | rfl
  · exact Nat.zero_lt_two
  · exact Nat.one_lt_two

end Under

namespace Proper

theorem skip : Proper db .skip := by
  intro hs _
  trivial

theorem throw : Proper db .throw := by
  intro hs _
  trivial

theorem act {o : Op} (ho : ∀ l ∈ o.needs, l = .session db) : Proper db (.act o) := by
  intro hs h l hl
  rw [ho l hl]
  exact h.session

theorem seq (hc : Proper db c) (hd : Proper db d) : Proper db (.seq c d) := fun _ h => ⟨hc _ h, hd _ h⟩

theorem ite (hc : Proper db c) (hd : Proper db d) : Proper db (.ite b c d) := fun _ h => ⟨hc _ h, hd _ h⟩

theorem loop (hc : Proper db c) : Proper db (.loop b c) := fun _ h => hc _ h

theorem attempt (hc : Proper db c) (hd : Proper db d) (he : Proper db e) : Proper db (.attempt c d e) :=
  fun _ h => ⟨hc _ h, hd _ h, he _ h⟩

theorem final (hc : Proper db c) (hd : Proper db d) : Proper db (.final c d) := fun _ h => ⟨hc _ h, hd _ h⟩

theorem block {cs : List Method} (hcs : ∀ c ∈ cs, Proper db c) : Proper db (.block cs) :=
  fun _ h => Code.obeys_block.2 fun c hc => hcs c hc _ h

theorem session (hc : Proper db c) : Proper db (.locked (.session db) c) :=
  fun _ h => ⟨h.mayTake_session, hc _ (h.cons (.inl rfl))⟩

theorem writer (hc : Proper db c) : Proper db (.locked (.writer db.path) c) :=
  fun _ h => ⟨h.mayTake_writer, hc _ (h.cons (.inr rfl))⟩

theorem registry {o : Op} (ho : ∀ l ∈ o.needs, l = .session db ∨ l = .registry) : Proper db (.locked .registry (.act o)) := by
  intro hs h
  refine ⟨h.mayTake_registry, ?_⟩
  intro l hl
  rcases ho l hl with rfl | rfl
  · exact List.mem_cons_of_mem _ h.session
  · exact List.mem_cons_self

end Proper

/-- A method that takes the lock of the session may be called with it and without a lock. -/
structure Entry (db : Db) (c : Method) : Prop where
  proper : Proper db c
  alone : c.Obeys discipline []

theorem Proper.entry (hc : Proper db c) : Entry db (.locked (.session db) c) :=
  ⟨hc.session, .inr (by simp), hc _ under_session⟩

section Methods

variable (db)

theorem proper_adoptBatches : Proper db (adoptBatches db) :=
  .seq (.act (by simp)) (.loop (.act (by simp)))

theorem proper_refreshFromWal : Proper db (refreshFromWal db) := by
  refine .ite (.ite .skip (.seq (.act (by simp)) (.ite ?_ ?_))) .skip
  · exact .seq (.registry (by simp)) (proper_adoptBatches db)
  · exact .ite .skip (proper_adoptBatches db)

theorem proper_beginLocked : Proper db (beginLocked db) := .ite .throw (.act (by simp))

/-- The images are collected and written to the log under the lock of the writers. -/
theorem proper_commitLocked : Proper db (commitLocked db) := by
  refine .ite (.seq ?_ (.act (by simp))) .throw
  intro hs h
  have hw := h.cons (.inr rfl)
  have hneeds : ∀ l ∈ [Lock.session db, Lock.writer db.path], l ∈ Lock.writer db.path :: hs := by
    simp [h.session]
  refine ⟨h.mayTake_writer, hneeds, ⟨hneeds, ?_⟩, trivial⟩
  exact Proper.registry (by simp) _ hw

theorem proper_rollbackLocked : Proper db (rollbackLocked db) := .ite (.act (by simp)) .throw

theorem entry_begin : Entry db (begin db) := (proper_beginLocked db).entry

theorem entry_commit : Entry db (commit db) := (proper_commitLocked db).entry

theorem entry_rollback : Entry db (rollback db) := (proper_rollbackLocked db).entry

theorem proper_working : Proper db (working db) := .loop (.act (by simp))

theorem entry_bulkInsert : Entry db (bulkInsert db) := by
  refine Proper.entry (.ite (proper_working db) (.writer (.seq (proper_beginLocked db) ?_)))
  exact .attempt (proper_working db) (.seq (proper_rollbackLocked db) .throw) (proper_commitLocked db)

theorem entry_checkpoint : Entry db (checkpoint db) := by
  refine Proper.entry (.ite .throw (.seq (.registry (by simp)) (.ite .throw ?_)))
  exact .seq (.act (by simp)) (.act (by simp))

theorem entry_close : Entry db (close db) := by
  refine Proper.entry (.ite (.block ?_) .skip)
  simp only [List.forall_mem_cons, List.not_mem_nil, false_implies, implies_true, and_true]
  refine ⟨.ite (entry_rollback db).proper .skip, ?_, .act (by simp)⟩
  refine .final (.ite (.seq (.act (by simp)) (.ite .skip (entry_checkpoint db).proper)) .skip) ?_
  exact .seq (.act (by simp)) (.registry (by simp))

theorem proper_runOne : Proper db (runOne db) := by
  have hwork := proper_working db
  refine .ite (entry_begin db).proper (.ite (entry_commit db).proper (.ite (entry_rollback db).proper (.ite (.ite (.writer hwork) hwork)
    (.ite hwork (.writer (.seq (entry_begin db).proper ?_))))))
  exact .attempt hwork (.seq (entry_rollback db).proper .throw) (entry_commit db).proper

theorem entry_executeScript : Entry db (executeScript db) := by
  refine Proper.entry (.block ?_)
  simp only [List.forall_mem_cons, List.not_mem_nil, false_implies, implies_true, and_true]
  exact ⟨.ite .skip (proper_refreshFromWal db), .act (by simp), .loop (proper_runOne db)⟩

theorem entry_execute : Entry db (execute db) := by
  have hrun : Proper db (.seq (.act (.cacheStmt db)) (runOne db)) := .seq (.act (by simp)) (proper_runOne db)
  refine Proper.entry (.seq (.ite .skip (proper_refreshFromWal db)) (.ite hrun ?_))
  exact .attempt (.act (by simp)) (entry_executeScript db).proper hrun

/-- Every method but `refresh_from_wal` takes the lock of its session. -/
theorem Call.entry {c : Call} (hc : c ≠ .refresh) : Entry db (c.code db) := by
  cases c with
  | refresh => exact absurd rfl hc
  | execute => exact entry_execute db
  | executeScript => exact entry_executeScript db
  | bulkInsert => exact entry_bulkInsert db
  | begin => exact entry_begin db
  | commit => exact entry_commit db
  | rollback => exact entry_rollback db
  | checkpoint => exact entry_checkpoint db
  | close => exact entry_close db

theorem Call.proper (c : Call) : Proper db (c.code db) := by
  by_cases hc : c = .refresh
  · subst hc
    exact proper_refreshFromWal db
  · exact (Call.entry db hc).proper

/-- On its own `refresh_from_wal` takes the lock of the registry only. -/
theorem refreshFromWal_order : (refreshFromWal db).Obeys order [] := by
  have hadopt : (adoptBatches db).Obeys order [] := ⟨by simp [Code.Obeys, order], by simp [Code.Obeys, order]⟩
  have hshare : (Code.locked Lock.registry (.act (.setSharedEnd db)) : Method).Obeys order [] :=
    ⟨.inr (by simp), by simp [Code.Obeys, order]⟩
  exact ⟨⟨trivial, by simp [Code.Obeys, order], ⟨hshare, hadopt⟩, trivial, hadopt⟩, trivial⟩

end Methods

/-! ### The tasks obey -/

/-- No `refresh_from_wal` from outside. -/
def Task.Sheltered : Task → Prop
  | call _ c => c ≠ .refresh
  | _ => True

theorem init_obeys (db : Db) : (init db).Obeys discipline [] := by
  refine Code.obeys_block.2 ?_
  simp [Code.Obeys, discipline, Discipline.MayTake]

theorem Task.obeys {t : Task} (ht : t.Sheltered) : t.code.Obeys discipline [] := by
  cases t with
  | connect db => exact init_obeys db
  | call db c => exact (Call.entry db ht).alone
  | together db cs =>
    refine (Proper.entry (.block ?_)).alone
    intro c hc
    obtain ⟨call, -, rfl⟩ := List.mem_map.1 hc
    exact Call.proper db call

theorem Task.obeys_order (t : Task) : t.code.Obeys order [] := by
  by_cases ht : t.Sheltered
  · exact (Task.obeys ht).mono (by simp)
  · cases t with
    | call db c =>
      obtain rfl : c = .refresh := not_not.1 ht
      exact refreshFromWal_order db
    | connect | together => exact absurd trivial ht

theorem program_obeys {D : Discipline Lock Op} {tasks : List Task} (h : ∀ t ∈ tasks, t.code.Obeys D []) : (program tasks).Obeys D [] := by
  refine Code.obeys_block.2 ?_
  intro c hc
  obtain ⟨t, ht, rfl⟩ := List.mem_map.1 hc
  exact ⟨h t ht, trivial, trivial⟩

/-! ### The threads of the engine -/

section Threads

variable {T : Type} [DecidableEq T] {tasks : T → List Task} {s s' : State T Lock Test Op} {es : List (T × Bool)}

/-- What the threads do next, one step of one thread after the other. -/
abbrev step (s : State T Lock Test Op) (e : T × Bool) : Option (State T Lock Test Op) := next Lock.reentrant s e

/-- Whatever the threads call, a thread that has not finished can step or waits, over other threads that wait, for one that can. -/
theorem progress_of_calls (hrun : Run step (fun _ _ => True) (start fun t => program (tasks t)) es s) {t : T}
    (ht : (s.threads t).stack ≠ []) :
    ∃ u, Relation.ReflTransGen (fun t u => ∃ l, s.Waits Lock.reentrant t l u) t u ∧ s.CanStep Lock.reentrant u := by
  have hinv : Inv order s := by
    refine Inv.of_run (start_inv ?_) hrun
    exact fun t => program_obeys fun t _ => t.obeys_order
  have hrank : ∀ l : Lock, order.rank l ≤ 2 := by
    intro l
    cases l <;> simp [order, discipline, Lock.rank]
  exact hinv.progress hrank ht

/-- Every operation is done under the locks it needs, and as long as a thread has a lock only it does what needs the lock. -/
theorem exclusive_of_calls (hsheltered : ∀ t, ∀ x ∈ tasks t, x.Sheltered)
    (hrun : Run step (fun _ _ => True) (start fun t => program (tasks t)) es s) :
    (∀ t o, (s.threads t).action = some o → ∀ l ∈ o.needs, l ∈ held (s.threads t).stack) ∧
      ∀ t l es' s', Run step (fun s _ => l ∈ held (s.threads t).stack) s es' s' →
        ∃ new, s'.done = s.done ++ new ∧ ∀ x ∈ new, l ∈ x.2.needs → x.1 = t := by
  have hinv : Inv discipline s := by
    refine Inv.of_run (start_inv ?_) hrun
    exact fun t => program_obeys fun x hx => Task.obeys (hsheltered t x hx)
  refine ⟨fun t o ho => held_of_action (hinv.obeys t) ho, ?_⟩
  intro t l es' s' hrun'
  exact hinv.exclusive hrun'

end Threads

/-! ### Two threads on one session -/

/-- Two threads that call `execute`; the first one has taken the lock of the session, the second one is to take it. -/
def twoThreads : Bool → List Task := fun _ => [.call ⟨0, "a.db"⟩ .execute]

theorem run_twoThreads : ∃ s : State Bool Lock Test Op, Run step (fun _ _ => True) (start fun t => program (twoThreads t))
    [(false, true), (false, true), (false, true), (true, true), (true, true)] s ∧
      s.Waits Lock.reentrant true (.session ⟨0, "a.db"⟩) false :=
  ⟨_, .cons trivial rfl <| .cons trivial rfl <| .cons trivial rfl <| .cons trivial rfl <| .cons trivial rfl <| .nil _,
    ⟨_, _, rfl⟩, ⟨_, rfl⟩, by simp⟩

theorem progress_twoThreads : ∃ s : State Bool Lock Test Op, s.Waits Lock.reentrant true (.session ⟨0, "a.db"⟩) false ∧
    ∃ u, Relation.ReflTransGen (fun t u => ∃ l, s.Waits Lock.reentrant t l u) true u ∧ s.CanStep Lock.reentrant u := by
  obtain ⟨s, hrun, hwaits⟩ := run_twoThreads
  refine ⟨s, hwaits, progress_of_calls hrun ?_⟩
  obtain ⟨⟨c, k, hth⟩, -⟩ := hwaits
  simp [hth]

theorem exclusive_twoThreads : ∃ s : State Bool Lock Test Op, s.Waits Lock.reentrant true (.session ⟨0, "a.db"⟩) false ∧
    (∀ t o, (s.threads t).action = some o → ∀ l ∈ o.needs, l ∈ held (s.threads t).stack) ∧
      ∀ t l es' s', Run step (fun s _ => l ∈ held (s.threads t).stack) s es' s' →
        ∃ new, s'.done = s.done ++ new ∧ ∀ x ∈ new, l ∈ x.2.needs → x.1 = t := by
  obtain ⟨s, hrun, hwaits⟩ := run_twoThreads
  refine ⟨s, hwaits, exclusive_of_calls ?_ hrun⟩
  intro t x hx
  obtain rfl := List.mem_singleton.1 hx
  exact Call.noConfusion

end Engine

end LeafDb
