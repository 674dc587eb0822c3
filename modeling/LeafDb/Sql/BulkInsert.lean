import LeafDb.CatalogPage
import LeafDb.PyTree
import LeafDb.Sql.Engine

/-!
# `bulk_insert` and its rollback (`engine.py`)

A session with its pages: the tree over the pager, the catalog and the indexes in memory, and the snapshot that
a rollback restores. `bulk_insert` begins a transaction itself, which clears the snapshot, and takes none, so
the rollback after an exception restores the pages and nothing else. A page program keeps what the pager needs
for that (`Pager.keeps_base`); the counters of the table say whether a row was put before the exception. The
log is left out: a commit is `collect_commit`.
-/

namespace LeafDb

namespace Catalog

/-- `get`. -/
def get (c : Catalog) (name : String) : Except PyError TableMeta :=
  match c.tables.find? (·.1 = name.toLower) with
  | some e => .ok e.2
  | none => .error .catalogError

theorem mem_of_get {c : Catalog} {name : String} {m : TableMeta} (h : c.get name = .ok m) :
    (name.toLower, m) ∈ c.tables := by
  rw [get] at h
  split at h
  · rename_i e he
    obtain rfl := Except.ok.inj h
    have hk : e.1 = name.toLower := by simpa using List.find?_some he
    rw [← hk]
    exact List.mem_of_find?_eq_some he
  · cases h

theorem eq_of_mem {c : Catalog} {name : String} {m m' : TableMeta} (h : (name, m) ∈ c.tables)
    (h' : (name, m') ∈ c.tables) : m' = m := by
  have he : (name, m') = (name, m) := List.inj_on_of_nodup_map c.nodup h' h rfl
  exact (Prod.mk.inj he).2

theorem mem_dictSet {β : Type} (d : List (String × β)) (key : String) (v : β) : (key, v) ∈ dictSet d key v := by
  rw [dictSet]
  split
  · rename_i h
    obtain ⟨e, he, hk⟩ := List.mem_map.1 h
    exact List.mem_map.2 ⟨e, he, if_pos hk⟩
  · simp

/-- Assigning the entry that is there changes nothing. -/
theorem setTable_self {c : Catalog} {name : String} {m : TableMeta} (h : (name, m) ∈ c.tables) : c.setTable name m = c := by
  refine ext ?_ rfl
  have hkey : name ∈ c.tables.map Prod.fst := List.mem_map.2 ⟨_, h, rfl⟩
  change dictSet c.tables name m = c.tables
  rw [dictSet, if_pos hkey]
  refine (List.map_congr_left fun e he => ?_).trans (List.map_id _)
  by_cases hk : e.1 = name
  · rw [if_pos hk]
    exact (List.inj_on_of_nodup_map c.nodup he h hk).symm
  · rw [if_neg hk, id]

theorem eq_of_setTable {c : Catalog} {name : String} {m m' : TableMeta} (h : (name, m) ∈ c.tables)
    (hs : (c.setTable name m').tables = c.tables) : m' = m :=
  eq_of_mem h (hs ▸ mem_dictSet c.tables name m')

end Catalog

/-! ### A session with its pages -/

/-- A `Database` object: its trees and pager, `catalog`, `indexes`, `in_txn` and `_snapshot`. -/
structure PyDatabase where
  tree : PyTree
  catalog : Catalog
  indexes : Indexes
  inTxn : Bool
  snapshot : Option (Catalog × Indexes)

/-- What `executor_insert_bulk` changes: the entry of its table, the trees and the indexes. -/
structure BulkWork where
  tmeta : TableMeta
  tree : PyTree
  indexes : Indexes

namespace PyTree

/-- The trees in a transaction that has just begun. -/
def begun (t : PyTree) : PyTree := { t with pager := { t.pager with touched := some [], shadow := ∅ } }

end PyTree

namespace PyDatabase

/-- `_begin_locked`. -/
def beginLocked : Exec PyDatabase Unit := fun s =>
  if s.inTxn then .error .transactionError s
  else
    match s.tree.pager.beginTxn with
    | .error e => .error e s
    | .ok pager => .ok () { s with tree := { s.tree with pager := pager }, snapshot := none, inTxn := true }

/-- `_commit_locked`. -/
def commitLocked : Exec PyDatabase Unit := fun s =>
  if ¬s.inTxn then .error .transactionError s
  else
    match s.tree.pager.collectCommit with
    | .error e => .error e s
    | .ok (_, _, pager) => .ok () { s with tree := { s.tree with pager := pager }, snapshot := none, inTxn := false }

/-- `_rollback_locked`. A catalog made from the snapshot has no free pages. -/
def rollbackLocked : Exec PyDatabase Unit := fun s =>
  if ¬s.inTxn then .error .transactionError s
  else
    let s := { s with tree := { s.tree with pager := s.tree.pager.rollbackTxn } }
    match s.snapshot with
    | none => .ok () { s with inTxn := false }
    | some (c, idxs) =>
      .ok () { s with catalog := ⟨c.tables, [], c.nodup⟩, indexes := idxs, snapshot := none, inTxn := false }

/-- `catalog.save`. -/
def saveCatalog (lib : JsonLib) : Exec PyDatabase Unit := fun s =>
  match s.catalog.save lib with
  | .error e => .error e s
  | .ok page =>
    match s.tree.pager.write 0 page with
    | .error e => .error e s
    | .ok pager => .ok () { s with tree := { s.tree with pager := pager } }

/-! ### `bulk_insert` -/

open Database (assignRowid coerceRow encodeChecked)

/-- What is done with a row before the tree: its rowid, its values and their bytes. -/
def prepareRow (m : TableMeta) (full : Row) : Except PyError (Int × Row × Bytes) := do
  if full.length ≠ m.columns.length then throw .sqlError
  let (rid, full) ← assignRowid m full
  let row ← coerceRow m.types full
  let blob ← encodeChecked m.types row
  return (rid, row, blob)

/-- `btree.insert` of a row; a duplicate key raises `dup`. -/
def insertCell (dup : PyError) (rid : Int) (blob : Bytes) : Exec BulkWork Nat := fun w =>
  match w.tree.insert w.tmeta.rootPage rid blob with
  | .ok root tree => .ok root { w with tree := tree }
  | .error (.duplicateKey _) tree => .error dup { w with tree := tree }
  | .error e tree => .error e { w with tree := tree }

/-- The entry of a table after a row was put. -/
def counted (m : TableMeta) (root : Nat) (rid : Int) : TableMeta :=
  { m with rootPage := root, nextRowid := max m.nextRowid (rid + 1), rowCount := m.rowCount + 1 }

/-- One row of `executor_insert_bulk`. -/
def bulkRow (full : Row) : Exec BulkWork Unit := do
  let m := (← get).tmeta
  let (rid, row, blob) ← Exec.lift (prepareRow m full)
  -- the text of its SQLError uses `pk`, which is not defined
  let root ← insertCell .nameError rid blob
  let w ← get
  set { w with tmeta := counted m root rid }
  let idxs ← Exec.lift (indexAdd (counted m root rid) rid row w.indexes)
  set (BulkWork.mk (counted m root rid) w.tree idxs)

def put (s : PyDatabase) (table : String) (w : BulkWork) : PyDatabase :=
  { s with tree := w.tree, catalog := s.catalog.setTable table.toLower w.tmeta, indexes := w.indexes }

/-- The loop of `executor_insert_bulk` changes `meta` in place. -/
def onMeta (table : String) (x : Exec BulkWork Unit) : Exec PyDatabase Unit := fun s =>
  match s.catalog.get table with
  | .error e => .error e s
  | .ok m =>
    match x ⟨m, s.tree, s.indexes⟩ with
    | .error e w => .error e (s.put table w)
    | .ok _ w => .ok () (s.put table w)

/-- `executor_insert_bulk`. -/
def executorInsertBulk (lib : JsonLib) (table : String) (rows : List Row) : Exec PyDatabase Nat := do
  onMeta table (rows.forM bulkRow)
  saveCatalog lib
  return rows.length

/-- `bulk_insert`. -/
def bulkInsert (lib : JsonLib) (table : String) (rows : List Row) : Exec PyDatabase Nat := fun s =>
  if s.inTxn then executorInsertBulk lib table rows s
  else
    match beginLocked s with
    | .error e s => .error e s
    | .ok _ s =>
      match executorInsertBulk lib table rows s with
      | .error e s =>
        match rollbackLocked s with
        | .error e s => .error e s
        | .ok _ s => .error e s
      | .ok n s =>
        match commitLocked s with
        | .error e s => .error e s
        | .ok _ s => .ok n s

/-! ### Sessions -/

variable {lib : JsonLib}

/-- The states of a session. What a call does is a sequence of these steps: it runs page programs, to their end
or up to an exception, saves the catalog, changes the catalog, the indexes and the snapshot in memory, begins
and ends transactions and flushes the pager. -/
inductive Reachable (lib : JsonLib) : PyDatabase → Prop
  | opened (file : Bytes) (cacheSize : Nat) (h : 0 < cacheSize) (c : Catalog) (idxs : Indexes)
      (hload : Catalog.load lib (readPage file 0) = .ok c) :
      Reachable lib ⟨⟨Pager.openFile file cacheSize h, ∅⟩, c, idxs, false, none⟩
  | pages {α : Type} {s : PyDatabase} {t : PyTree} (x : TreeM (Option Nat) α) (hs : Reachable lib s)
      (h : (∃ a, x.exec s.tree = .ok a t) ∨ ∃ e, x.exec s.tree = .error e t) : Reachable lib { s with tree := t }
  | saved {s s' : PyDatabase} (hs : Reachable lib s) (h : saveCatalog lib s = .ok () s') : Reachable lib s'
  | memory {s : PyDatabase} (c : Catalog) (idxs : Indexes) (snapshot : Option (Catalog × Indexes)) (hs : Reachable lib s) :
      Reachable lib { s with catalog := c, indexes := idxs, snapshot := snapshot }
  | began {s s' : PyDatabase} (hs : Reachable lib s) (h : beginLocked s = .ok () s') : Reachable lib s'
  | committed {s s' : PyDatabase} (hs : Reachable lib s) (h : commitLocked s = .ok () s') : Reachable lib s'
  | rolledBack {s s' : PyDatabase} (hs : Reachable lib s) (h : rollbackLocked s = .ok () s') : Reachable lib s'
  | flushed {s : PyDatabase} {p : Pager} (hs : Reachable lib s) (hidle : s.inTxn = false) (h : s.tree.pager.flush = .ok p) :
      Reachable lib { s with tree := { s.tree with pager := p } }

/-- The pager is well formed, and knows whether a transaction is open. -/
def Ok (s : PyDatabase) : Prop := s.tree.pager.WF ∧ s.tree.pager.touched.isSome = s.inTxn

theorem beginLocked_eq {s : PyDatabase} (h : s.Ok) (hidle : s.inTxn = false) :
    beginLocked s = .ok () { s with tree := s.tree.begun, snapshot := none, inTxn := true } := by
  have ht : ¬s.tree.pager.touched.isSome := by simp [h.2, hidle]
  rw [beginLocked, if_neg (by simp [hidle]), Pager.beginTxn, if_neg ht]
  rfl

theorem commitLocked_eq {s : PyDatabase} (h : s.tree.pager.WF) (ht : s.inTxn = true) :
    commitLocked s = .ok () { s with
      tree := { s.tree with pager := { s.tree.pager with touched := none, shadow := ∅ } }, snapshot := none, inTxn := false } := by
  rw [commitLocked, if_neg (by simp [ht]), Pager.collectCommit_eq h]

/-- A rollback after which no snapshot is restored. -/
theorem rollbackLocked_eq {s : PyDatabase} (ht : s.inTxn = true) (hsnap : s.snapshot = none) :
    rollbackLocked s = .ok () { s with tree := { s.tree with pager := s.tree.pager.rollbackTxn }, inTxn := false } := by
  rw [rollbackLocked, if_neg (by simp [ht])]
  simp only [hsnap]

/-- By cases on the step. -/
theorem Reachable.ok {s : PyDatabase} (h : Reachable lib s) : s.Ok := by
  induction h with
  | opened file cacheSize h c idxs hload => exact ⟨Pager.wf_openFile file cacheSize h, rfl⟩
  | pages x hs h ih =>
    have hx := (Pager.keeps_wf _).exec x ih
    rcases h with ⟨a, h⟩ | ⟨e, h⟩
    · exact hx.of_ok h
    · exact hx.of_error h
  | saved hs h ih =>
    unfold saveCatalog at h
    split at h
    · cases h
    · split at h
      · cases h
      · rename_i hw
        cases h
        exact (Pager.keeps_wf _).write ih hw
  | memory c idxs snapshot hs ih => exact ih
  | @began s s' hs h ih =>
    by_cases hidle : s.inTxn = true
    · rw [beginLocked, if_pos hidle] at h
      cases h
    · rw [beginLocked_eq ih (by simpa using hidle)] at h
      cases h
      exact ⟨Pager.wf_begin ih.1, rfl⟩
  | @committed s s' hs h ih =>
    by_cases ht : s.inTxn = true
    · rw [commitLocked_eq ih.1 ht] at h
      cases h
      exact ⟨Pager.wf_commit ih.1, rfl⟩
    · rw [commitLocked, if_pos ht] at h
      cases h
  | @rolledBack s s' hs h ih =>
    have hwf := Pager.wf_rollbackTxn ih.1
    rw [rollbackLocked] at h
    split at h
    · cases h
    · simp only at h
      split at h <;> cases h <;> exact ⟨hwf, rfl⟩
  | @flushed s p hs hidle h ih =>
    have ht : s.tree.pager.touched = none := by simpa [hidle] using ih.2
    obtain ⟨-, -, -, htouched, -⟩ := Pager.flush_fields ih.1 h
    exact ⟨Pager.wf_flush ih.1 ht h, by rw [htouched]; exact ih.2⟩

/-! ### What an exception leaves -/

/-- The row is accepted, and its cell goes into the tree. -/
def Puts (m : TableMeta) (t : PyTree) (full : Row) : Prop :=
  ∃ rid row blob root t', prepareRow m full = .ok (rid, row, blob) ∧ t.insert m.rootPage rid blob = .ok root t'

/-- The entry and the indexes of `w'` are those of `w` just when the first of the rows was not put. -/
structure FirstDecides (w : BulkWork) (rows : List Row) (w' : BulkWork) : Prop where
  put : (∃ full ∈ rows.head?, Puts w.tmeta w.tree full) → w.tmeta.rowCount < w'.tmeta.rowCount
  same : (¬∃ full ∈ rows.head?, Puts w.tmeta w.tree full) → w'.tmeta = w.tmeta ∧ w'.indexes = w.indexes

section Rows

variable {P : Pager → Prop} {w : BulkWork}

theorem insertCell_spec (hP : Keeps P) (h : P w.tree.pager) (dup : PyError) (rid : Int) (blob : Bytes) :
    Exec.Post (insertCell dup rid blob) w
      (fun root w' => P w'.tree.pager ∧ w' = { w with tree := w'.tree } ∧
        w.tree.insert w.tmeta.rootPage rid blob = .ok root w'.tree)
      fun _ w' => P w'.tree.pager ∧ w' = { w with tree := w'.tree } ∧
        ∃ e, w.tree.insert w.tmeta.rootPage rid blob = .error e w'.tree := by
  have hx := hP.exec (BTree.insert w.tree.pager.numPages w.tmeta.rootPage rid blob) h
  unfold Exec.Post at hx ⊢
  rw [insertCell]
  rw [← PyTree.insert] at hx
  rcases hr : w.tree.insert w.tmeta.rootPage rid blob with ⟨root, t⟩ | ⟨e, t⟩
  · rw [hr] at hx
    exact ⟨hx, rfl, rfl⟩
  · rw [hr] at hx
    cases e <;> exact ⟨hx, rfl, _, rfl⟩

/-- A row counts once its cell is in the tree, and else changes neither the entry nor the indexes. -/
theorem bulkRow_spec (hP : Keeps P) (h : P w.tree.pager) (full : Row) :
    Exec.Post (bulkRow full) w
      (fun _ w' => P w'.tree.pager ∧ Puts w.tmeta w.tree full ∧ ∃ root rid, w'.tmeta = counted w.tmeta root rid)
      fun _ w' => P w'.tree.pager ∧ (Puts w.tmeta w.tree full → w'.tmeta.rowCount = w.tmeta.rowCount + 1) ∧
        (¬Puts w.tmeta w.tree full → w'.tmeta = w.tmeta ∧ w'.indexes = w.indexes) := by
  rw [bulkRow, Exec.post_bind, Exec.post_get, Exec.post_bind, Exec.post_lift]
  refine ⟨fun r hr => ?_, fun e he => ⟨h, fun ⟨rid, row, blob, root, t, hr, _⟩ => ?_, fun _ => ⟨rfl, rfl⟩⟩⟩
  swap
  · cases he.symm.trans hr
  obtain ⟨rid, row, blob⟩ := r
  rw [Exec.post_bind]
  refine (insertCell_spec hP h _ rid blob).mono (fun root w' ⟨hp, hw, hi⟩ => ?_) fun e w' ⟨hp, hw, e', hi⟩ =>
    ⟨hp, fun ⟨rid', row', blob', root, t, hr', hi'⟩ => ?_, fun _ => by rw [hw]; exact ⟨rfl, rfl⟩⟩
  · have hputs : Puts w.tmeta w.tree full := ⟨rid, row, blob, root, _, hr, hi⟩
    rw [Exec.post_bind, Exec.post_get, Exec.post_bind, Exec.post_set, Exec.post_bind, Exec.post_lift]
    refine ⟨fun idxs _ => ?_, fun e _ => ⟨hp, fun _ => rfl, fun hn => absurd hputs hn⟩⟩
    rw [Exec.post_set]
    exact ⟨hp, hputs, root, rid, rfl⟩
  · obtain ⟨rfl, h1⟩ := Prod.mk.inj (Except.ok.inj (hr.symm.trans hr'))
    obtain ⟨rfl, rfl⟩ := Prod.mk.inj h1
    cases hi.symm.trans hi'

/-- No row makes the counter smaller. -/
theorem bulkRows_spec (hP : Keeps P) (h : P w.tree.pager) (rows : List Row) :
    Exec.Post (rows.forM bulkRow) w (fun _ w' => P w'.tree.pager ∧ w.tmeta.rowCount ≤ w'.tmeta.rowCount)
      fun _ w' => P w'.tree.pager ∧ w.tmeta.rowCount ≤ w'.tmeta.rowCount := by
  refine Exec.post_forM (P := fun w' : BulkWork => P w'.tree.pager ∧ w.tmeta.rowCount ≤ w'.tmeta.rowCount)
    (fun full w' ⟨hp, hle⟩ => ?_) ⟨h, le_refl _⟩
  refine (bulkRow_spec hP hp full).mono (fun _ w'' ⟨hp', _, _, _, hc⟩ => ⟨hp', by rw [hc]; exact hle.trans (Nat.le_succ _)⟩)
    fun e w'' ⟨hp', hc, hn⟩ => ⟨hp', ?_⟩
  by_cases hputs : Puts w'.tmeta w'.tree full
  · have := hc hputs
    omega
  · rw [(hn hputs).1]
    exact hle

/-- The first row decides whether the entry and the indexes are what they were. -/
theorem bulkRows_first (hP : Keeps P) (h : P w.tree.pager) (rows : List Row) :
    Exec.Post (rows.forM bulkRow) w (fun _ w' => P w'.tree.pager ∧ FirstDecides w rows w')
      fun _ w' => P w'.tree.pager ∧ FirstDecides w rows w' := by
  cases rows with
  | nil => exact ⟨h, fun ⟨_, hfull, _⟩ => (nomatch hfull), fun _ => ⟨rfl, rfl⟩⟩
  | cons full rows =>
    have hhead : (∃ full' ∈ (full :: rows).head?, Puts w.tmeta w.tree full') ↔ Puts w.tmeta w.tree full := by simp
    change Exec.Post (bulkRow full >>= fun _ => rows.forM bulkRow) w _ _
    rw [Exec.post_bind]
    refine (bulkRow_spec hP h full).mono (fun _ w' ⟨hp, hputs, _, _, hc⟩ => ?_) fun e w' ⟨hp, hc, hn⟩ =>
      ⟨hp, fun hf => by rw [hc (hhead.1 hf)]; exact Nat.lt_succ_self _, fun hf => hn fun hputs => hf (hhead.2 hputs)⟩
    have hmore : ∀ w'' : BulkWork, P w''.tree.pager ∧ w'.tmeta.rowCount ≤ w''.tmeta.rowCount →
        P w''.tree.pager ∧ FirstDecides w (full :: rows) w'' := by
      rintro w'' ⟨hp', hle⟩
      exact ⟨hp', fun _ => by rw [hc] at hle; exact hle, fun hf => absurd (hhead.2 hputs) hf⟩
    exact (bulkRows_spec hP hp rows).mono (fun _ => hmore) fun _ => hmore

end Rows

/-- The entries of the tables and the indexes are the same. -/
def SameMemory (s s' : PyDatabase) : Prop := s'.catalog.tables = s.catalog.tables ∧ s'.indexes = s.indexes

/-- There is a first row, and its cell goes into the tree `t`. -/
def PutsFirst (s : PyDatabase) (t : PyTree) (table : String) (rows : List Row) : Prop :=
  ∃ m full, s.catalog.get table = .ok m ∧ full ∈ rows.head? ∧ Puts m t full

/-- What both outcomes of the inner function have in common. -/
structure Partway (P : Pager → Prop) (s : PyDatabase) (table : String) (rows : List Row) (s' : PyDatabase) : Prop where
  pager : P s'.tree.pager
  inTxn : s'.inTxn = s.inTxn
  snapshot : s'.snapshot = s.snapshot
  memory : SameMemory s s' ↔ ¬PutsFirst s s.tree table rows

section Partway

variable {P : Pager → Prop} {s : PyDatabase} {table : String} {rows : List Row}

theorem partway_put {m : TableMeta} {w : BulkWork} (hm : s.catalog.get table = .ok m)
    (hp : P w.tree.pager) (hw : FirstDecides ⟨m, s.tree, s.indexes⟩ rows w) : Partway P s table rows (s.put table w) where
  pager := hp
  inTxn := rfl
  snapshot := rfl
  memory := by
    have hmem := Catalog.mem_of_get hm
    constructor
    · rintro ⟨htables, -⟩ ⟨m', full, hm', hfull, hputs⟩
      obtain rfl := Except.ok.inj (hm.symm.trans hm')
      have hlt := hw.put ⟨full, hfull, hputs⟩
      rw [Catalog.eq_of_setTable hmem htables] at hlt
      exact lt_irrefl _ hlt
    · intro hn
      obtain ⟨h1, h2⟩ := hw.same fun ⟨full, hfull, hputs⟩ => hn ⟨m, full, hm, hfull, hputs⟩
      refine ⟨?_, h2⟩
      change (s.catalog.setTable table.toLower w.tmeta).tables = _
      rw [h1, Catalog.setTable_self hmem]

theorem partway_onMeta (hP : Keeps P) (h : P s.tree.pager) : Exec.Post (onMeta table (rows.forM bulkRow)) s
    (fun _ s' => Partway P s table rows s') fun _ s' => Partway P s table rows s' := by
  rw [Exec.Post, onMeta]
  cases hm : s.catalog.get table with
  | error e =>
    refine ⟨h, rfl, rfl, iff_of_true ⟨rfl, rfl⟩ ?_⟩
    rintro ⟨m, _, hm', _⟩
    cases hm.symm.trans hm'
  | ok m =>
    have hrows := bulkRows_first (w := ⟨m, s.tree, s.indexes⟩) hP h rows
    rw [Exec.Post] at hrows
    simp only
    rcases hx : rows.forM bulkRow ⟨m, s.tree, s.indexes⟩ with ⟨u, w⟩ | ⟨e, w⟩ <;> rw [hx] at hrows
    · exact partway_put hm hrows.1 hrows.2
    · exact partway_put hm hrows.1 hrows.2

theorem Partway.saveCatalog (hP : Keeps P) {s' : PyDatabase} (h : Partway P s table rows s') :
    Exec.Post (PyDatabase.saveCatalog lib) s' (fun _ t => Partway P s table rows t) fun _ t => Partway P s table rows t := by
  rw [Exec.Post, PyDatabase.saveCatalog]
  cases hpage : s'.catalog.save lib with
  | error e => exact h
  | ok page =>
    cases hw : s'.tree.pager.write 0 page with
    | error e => simpa only [hw] using h
    | ok p => simpa only [hw] using ⟨hP.write h.pager hw, h.inTxn, h.snapshot, h.memory⟩

/-- The loop and the save, whichever of them raises. -/
theorem partway_executorInsertBulk (lib : JsonLib) (hP : Keeps P) (h : P s.tree.pager) (table : String)
    (rows : List Row) : Exec.Post (executorInsertBulk lib table rows) s
    (fun _ s' => Partway P s table rows s') fun _ s' => Partway P s table rows s' := by
  rw [executorInsertBulk, Exec.post_bind]
  refine (partway_onMeta hP h).mono (fun _ s' h' => ?_) fun _ s' h' => h'
  rw [Exec.post_bind]
  exact (h'.saveCatalog hP).mono (fun _ t ht => ht) fun _ t ht => ht

end Partway

/-- The entries of the tables, the indexes and the images of the pages are the same. -/
def Same (s s' : PyDatabase) : Prop :=
  SameMemory s s' ∧ ∀ n, s'.tree.pager.content n = s.tree.pager.content n

/-- The rollback restores the pages and, having no snapshot, nothing else. -/
theorem same_iff_of_raises {s s' : PyDatabase} {table : String} {rows : List Row} {e : PyError} (hok : s.Ok)
    (hidle : s.inTxn = false) (hx : bulkInsert lib table rows s = .error e s') :
    Same s s' ↔ ¬PutsFirst s s.tree.begun table rows := by
  have hspec := partway_executorInsertBulk (s := { s with tree := s.tree.begun, snapshot := none, inTxn := true }) lib
    (Pager.keeps_base s.tree.pager.content) ⟨⟨Pager.wf_begin hok.1, rfl⟩, Pager.base_begin s.tree.pager⟩ table rows
  rw [bulkInsert, if_neg (by simp [hidle]), beginLocked_eq hok hidle] at hx
  rw [Exec.Post] at hspec
  simp only at hx
  rcases hr : executorInsertBulk lib table rows { s with tree := s.tree.begun, snapshot := none, inTxn := true }
    with ⟨n, t⟩ | ⟨e', t⟩ <;> rw [hr] at hx hspec <;> simp only at hx
  · rw [commitLocked_eq hspec.pager.1.1 hspec.inTxn] at hx
    cases hx
  · rw [rollbackLocked_eq hspec.inTxn hspec.snapshot] at hx
    cases hx
    have hpages : ∀ n, t.tree.pager.rollbackTxn.content n = s.tree.pager.content n := fun n =>
      (Pager.content_rollbackTxn _ n).trans (hspec.pager.2 n)
    exact ⟨fun hsame => hspec.memory.1 hsame.1, fun hn => ⟨hspec.memory.2 hn, hpages⟩⟩

/-- An exception of `bulk_insert` is undone just when it comes before the first row is put. -/
theorem bulkInsert_undone_iff {s s' : PyDatabase} {table : String} {rows : List Row} {e : PyError} (hs : Reachable lib s)
    (hidle : s.inTxn = false) (hx : bulkInsert lib table rows s = .error e s') :
    Same s s' ↔ ¬PutsFirst s s.tree.begun table rows :=
  same_iff_of_raises hs.ok hidle hx

/-- A row that raises makes the call raise. -/
theorem bulkInsert_raises {s : PyDatabase} {table : String} {rows : List Row} {m : TableMeta} (hok : s.Ok)
    (hidle : s.inTxn = false) (hm : s.catalog.get table = .ok m)
    (hrows : Exec.Post (rows.forM bulkRow) ⟨m, s.tree.begun, s.indexes⟩ (fun _ _ => False) fun _ _ => True) :
    ∃ e s', bulkInsert lib table rows s = .error e s' := by
  unfold Exec.Post at hrows
  rcases hx : rows.forM bulkRow ⟨m, s.tree.begun, s.indexes⟩ with ⟨u, w⟩ | ⟨e, w⟩ <;> rw [hx] at hrows
  · exact hrows.elim
  have hexec : executorInsertBulk lib table rows { s with tree := s.tree.begun, snapshot := none, inTxn := true } =
      .error e (put { s with tree := s.tree.begun, snapshot := none, inTxn := true } table w) := by
    have hmeta : onMeta table (rows.forM bulkRow) { s with tree := s.tree.begun, snapshot := none, inTxn := true } =
        .error e (put { s with tree := s.tree.begun, snapshot := none, inTxn := true } table w) := by
      rw [onMeta]
      simp only [hm, hx]
    exact Exec.bind_of_error hmeta
  rw [bulkInsert, if_neg (by simp [hidle]), beginLocked_eq hok hidle]
  simp only [hexec]
  rw [rollbackLocked_eq rfl rfl]
  exact ⟨e, _, rfl⟩

/-! A table of one TEXT column and a list with a row that is too short. -/

def oneTableMeta : TableMeta := ⟨"t", [⟨"v", .text, false⟩], 1, 0, 1, []⟩

def oneTable : Catalog := ⟨[("t", oneTableMeta)], [], by simp⟩

/-- The JSON text of `oneTable`. -/
def oneTableText : Bytes :=
  [123, 34, 116, 97, 98, 108, 101, 115, 34, 58, 32, 123, 34, 116, 34, 58, 32, 123, 34, 110, 97, 109, 101, 34,
    58, 32, 34, 116, 34, 44, 32, 34, 99, 111, 108, 117, 109, 110, 115, 34, 58, 32, 91, 123, 34, 110, 97, 109,
    101, 34, 58, 32, 34, 118, 34, 44, 32, 34, 116, 121, 112, 101, 34, 58, 32, 34, 84, 69, 88, 84, 34, 44, 32,
    34, 112, 107, 34, 58, 32, 102, 97, 108, 115, 101, 125, 93, 44, 32, 34, 114, 111, 111, 116, 95, 112, 97, 103,
    101, 34, 58, 32, 49, 44, 32, 34, 114, 111, 119, 95, 99, 111, 117, 110, 116, 34, 58, 32, 48, 44, 32, 34, 110,
    101, 120, 116, 95, 114, 111, 119, 105, 100, 34, 58, 32, 49, 44, 32, 34, 105, 110, 100, 101, 120, 101, 115,
    34, 58, 32, 123, 125, 125, 125, 44, 32, 34, 102, 114, 101, 101, 95, 112, 97, 103, 101, 115, 34, 58, 32, 91,
    93, 125]

def oneTableLib : JsonLib where
  dumps _ := oneTableText
  loads text := if text = oneTableText then .ok oneTable.json else .error .valueError

/-- The catalog on page 0, and an empty leaf on page 1. -/
def oneTableFile : Bytes := padTo pageSize oneTableText ++ padTo pageSize (Node.leaf [] none : PyNode).encode

/-- A session opened on it. -/
def oneTableSession : PyDatabase :=
  ⟨⟨Pager.openFile oneTableFile 64 (by decide), ∅⟩, oneTable, fun _ => none, false, none⟩

set_option maxRecDepth 4000 in
theorem length_oneTableText : oneTableText.length ≤ pageSize - 8 := by
  simp [oneTableText, pageSize]

theorem get_oneTable : oneTable.get "t" = .ok oneTableMeta := by
  have ht : "t".toLower = "t" := by decide +kernel
  rw [Catalog.get, ht]
  rfl

theorem length_oneTablePages : (padTo pageSize oneTableText).length = pageSize ∧
    (padTo pageSize (Node.leaf [] none : PyNode).encode).length = pageSize :=
  ⟨length_padTo (length_oneTableText.trans (Nat.sub_le _ _)), length_padTo (by decide)⟩

theorem readPage_oneTableFile : readPage oneTableFile 0 = padTo pageSize oneTableText ∧
    readPage oneTableFile 1 = padTo pageSize (Node.leaf [] none : PyNode).encode := by
  obtain ⟨h0, h1⟩ := length_oneTablePages
  have hfull : ∀ buf : Bytes, buf.length = pageSize → padTo pageSize buf = buf := fun buf h => by simp [padTo, h]
  rw [readPage, readPage, oneTableFile, readAt, readAt]
  generalize padTo pageSize oneTableText = a at *
  generalize padTo pageSize (Node.leaf [] none : PyNode).encode = b at *
  constructor
  · rw [Nat.zero_mul, List.drop_zero, ← h0, List.take_left, h0, hfull a h0]
  · rw [Nat.one_mul, ← h0, List.drop_left, h0, List.take_of_length_le h1.le, hfull b h1]

theorem reachable_oneTableSession : Reachable oneTableLib oneTableSession := by
  refine .opened oneTableFile 64 (by decide) oneTable (fun _ => none) ?_
  have hsave : oneTable.save oneTableLib = .ok (padTo pageSize oneTableText) := by
    rw [Catalog.save]
    exact if_neg (not_lt.2 length_oneTableText)
  rw [readPage_oneTableFile.1]
  exact Catalog.load_save (b := 125) hsave (by simp only [oneTableLib, if_true]) rfl (by decide)

theorem numPages_oneTable : oneTableSession.tree.begun.pager.numPages = 2 := by
  obtain ⟨h0, h1⟩ := length_oneTablePages
  change max 1 (oneTableFile.length / pageSize) = 2
  rw [oneTableFile, List.length_append, h0, h1]
  rfl

theorem prepareRow_oneTable : prepareRow oneTableMeta [.none] = .ok (1, [.none], [0, 0, 0, 1]) := rfl

/-- The empty leaf takes a cell. -/
theorem insert_emptyLeaf {t t' : PyTree} (h : PyTree.load 1 t = .ok (.leaf [] none) t') (hn : t.pager.numPages = 2) :
    ∃ root t'', t.insert 1 1 [0, 0, 0, 1] = .ok root t'' := by
  have hpost : Exec.Post (BTree.insert 2 1 1 [0, 0, 0, 1]).exec t (fun _ _ => True) fun _ _ => False := by
    rw [BTree.insert, if_neg (by decide), TreeM.post_bind, BTree.insertRec, TreeM.post_bind, TreeM.post_loadNode h]
    change Exec.Post (BTree.putOrSplit 1 (.leaf [(1, [0, 0, 0, 1])] none) _).exec t' _ _
    have hsize : (Node.leaf [(1, [0, 0, 0, 1])] none : PyNode).serializedSize = .ok 25 := by decide
    rw [BTree.putOrSplit, TreeM.post_bind, TreeM.post_mutate, TreeM.post_bind, hsize]
    rw [TreeM.post_lift_ok, if_pos (by decide), TreeM.post_bind]
    exact TreeM.post_writeNode (by decide) (by decide) fun t' => trivial
  rw [PyTree.insert, hn]
  unfold Exec.Post at hpost
  rcases hx : (BTree.insert 2 1 1 [0, 0, 0, 1]).exec t with ⟨root, t''⟩ | ⟨e, t''⟩ <;> rw [hx] at hpost
  · exact ⟨root, t'', rfl⟩
  · exact hpost.elim

/-- The leaf on page 1 is empty. -/
theorem load_oneTable : ∃ t', PyTree.load 1 oneTableSession.tree.begun = .ok (.leaf [] none) t' := by
  refine PyTree.load_of_miss (Pager.wf_begin (Pager.wf_openFile ..)) ?_ rfl ?_
  · rw [numPages_oneTable]
    decide
  · change nodeFromBytes (readPage oneTableFile 1) = _
    rw [readPage_oneTableFile.2, padTo]
    exact nodeFromBytes_encode (by decide) _

/-- The first row goes into it. -/
theorem puts_oneTable : Puts oneTableMeta oneTableSession.tree.begun [.none] := by
  obtain ⟨t', hload⟩ := load_oneTable
  obtain ⟨root, t'', hx⟩ := insert_emptyLeaf hload numPages_oneTable
  exact ⟨1, _, _, root, t'', prepareRow_oneTable, hx⟩

/-- The second row raises. -/
theorem raises_oneTableRows (t : PyTree) (idxs : Indexes) :
    Exec.Post ([[.none], []].forM bulkRow) ⟨oneTableMeta, t, idxs⟩ (fun _ _ => False) fun _ _ => True := by
  have hkeep : Keeps fun _ => True := ⟨fun _ _ => trivial, fun _ _ => trivial, fun _ => trivial⟩
  change Exec.Post (bulkRow [.none] >>= fun _ => bulkRow [] >>= fun _ => pure ()) _ _ _
  rw [Exec.post_bind]
  refine (bulkRow_spec hkeep trivial [.none]).mono (fun _ w ⟨_, _, root, rid, hw⟩ => ?_) fun _ _ _ => trivial
  have hshort : prepareRow w.tmeta [] = .error .sqlError := by
    rw [hw]
    rfl
  rw [Exec.post_bind, bulkRow, Exec.post_bind, Exec.post_get, Exec.post_bind, Exec.post_lift]
  exact ⟨fun r hr => absurd (hshort.symm.trans hr) nofun, fun _ _ => trivial⟩

theorem raises_oneTable : ∃ e s', bulkInsert oneTableLib "t" [[.none], []] oneTableSession = .error e s' := by
  have hok := reachable_oneTableSession.ok
  have hidle : oneTableSession.inTxn = false := rfl
  have hget : oneTableSession.catalog.get "t" = .ok oneTableMeta := get_oneTable
  generalize oneTableSession = s at hok hidle hget ⊢
  exact bulkInsert_raises hok hidle hget (raises_oneTableRows _ _)

theorem undone_iff_oneTable : ∃ e s', bulkInsert oneTableLib "t" [[.none], []] oneTableSession = .error e s' ∧
    (Same oneTableSession s' ↔ ¬PutsFirst oneTableSession oneTableSession.tree.begun "t" [[.none], []]) := by
  obtain ⟨e, s', hx⟩ := raises_oneTable
  exact ⟨e, s', hx, bulkInsert_undone_iff reachable_oneTableSession rfl hx⟩

/-- The first row still counts in the catalog after the second has raised. -/
theorem not_bulkInsert_undone : Reachable oneTableLib oneTableSession ∧ oneTableSession.inTxn = false ∧
    ∃ e s', bulkInsert oneTableLib "t" [[.none], []] oneTableSession = .error e s' ∧ ¬Same oneTableSession s' := by
  obtain ⟨e, s', hx⟩ := raises_oneTable
  refine ⟨reachable_oneTableSession, rfl, e, s', hx, fun hsame => ?_⟩
  exact (same_iff_of_raises reachable_oneTableSession.ok rfl hx).1 hsame ⟨oneTableMeta, [.none], get_oneTable, rfl, puts_oneTable⟩

end PyDatabase

end LeafDb
