import LeafDb.Sql.BulkInsert
import LeafDb.TreeScan

/-!
# INSERT, UPDATE and DELETE over the pages (`engine.py`)

The statements that change rows, with the tree of their table over the pager: the rows are read with page
programs, each changed row is a call of `btree.insert`, `btree.upsert` or `btree.delete`, and the catalog is saved
last. A program of loads leaves the pages as they are (`TreeM.ReadOnly.reads`), and a statement leaves a state of
the session whether it raises or not (`reachable_runOne`).
-/

namespace LeafDb

/-! ### Programs that read -/

namespace TreeM

variable {ν α β : Type}

/-- A program of loads. -/
def ReadOnly : TreeM ν α → Prop
  | pure _ => True
  | fail _ => True
  | load _ k => ∀ nd, (k nd).ReadOnly
  | _ => False

theorem ReadOnly.bind {x : TreeM ν α} {f : α → TreeM ν β} (hx : x.ReadOnly) (hf : ∀ a, (f a).ReadOnly) :
    (x >>= f).ReadOnly := by
  change (x.bind f).ReadOnly
  induction x with
  | pure a => exact hf a
  | fail e => trivial
  | load n k ih => exact fun nd => ih nd (hx nd)
  | mutate => exact hx.elim
  | write => exact hx.elim
  | allocate => exact hx.elim

theorem readOnly_loadNode (n : Nat) : (loadNode n : TreeM ν (Node ν)).ReadOnly := fun _ => trivial

theorem readOnly_at? (xs : List α) (i : Nat) : (at? xs i : TreeM ν α).ReadOnly := by
  rw [at?]
  split <;> trivial

end TreeM

namespace BTree

open TreeM

variable {ν : Type}

theorem readOnly_lookup (fuel n : Nat) (key : Int) : (lookup fuel n key : TreeM ν _).ReadOnly := by
  induction fuel generalizing n with
  | zero => trivial
  | succ fuel ih =>
    rw [lookup]
    refine (readOnly_loadNode n).bind fun nd => ?_
    rcases nd with ⟨cells, next⟩ | ⟨keys, children⟩
    · trivial
    · exact (readOnly_at? _ _).bind fun c => ih c

theorem readOnly_firstLeaf (fuel n : Nat) : (firstLeaf fuel n : TreeM ν _).ReadOnly := by
  induction fuel generalizing n with
  | zero => trivial
  | succ fuel ih =>
    rw [firstLeaf]
    refine (readOnly_loadNode n).bind fun nd => ?_
    rcases nd with ⟨cells, next⟩ | ⟨keys, children⟩
    · trivial
    · exact (readOnly_at? _ _).bind fun c => ih c

variable [TreeLink ν]

theorem readOnly_chainCells (fuel n : Nat) : (chainCells fuel n : TreeM ν _).ReadOnly := by
  induction fuel generalizing n with
  | zero => trivial
  | succ fuel ih =>
    rw [chainCells]
    refine (readOnly_loadNode n).bind fun nd => ?_
    rcases nd with ⟨cells, next⟩ | ⟨keys, children⟩
    · cases hl : Link.follow next with
      | none =>
        simp only [hl]
        trivial
      | some n' =>
        simp only [hl]
        exact ReadOnly.bind (ih n') fun _ => trivial
    · trivial

theorem readOnly_items (fuel root : Nat) : (items fuel root : TreeM ν _).ReadOnly :=
  (readOnly_firstLeaf fuel root).bind fun n => readOnly_chainCells fuel n

end BTree

/-- What reading in a transaction leaves of the pager: `q` shows the pages of `p`, and would commit the same. -/
structure Undisturbed (p q : Pager) : Prop where
  wf : q.WF
  content : ∀ n, q.content n = p.content n
  touched : q.touched = p.touched
  numPages : q.numPages = p.numPages

namespace Undisturbed

variable {p q r : Pager}

theorem refl (h : p.WF) : Undisturbed p p := ⟨h, fun _ => rfl, rfl, rfl⟩

theorem trans (h : Undisturbed p q) (h' : Undisturbed q r) : Undisturbed p r :=
  ⟨h'.wf, fun n => (h'.content n).trans (h.content n), h'.touched.trans h.touched, h'.numPages.trans h.numPages⟩

/-- `get` in a transaction evicts nothing. -/
theorem get {n : Nat} {im : Image} (h : p.WF) (ht : p.touched.isSome) (hg : p.get n = .ok (im, q)) : Undisturbed p q := by
  have hf := Pager.fetches_get h hg
  exact ⟨hf.wf h, hf.content_eq_of_touched ht, hf.touched_eq, hf.numPages_eq⟩

end Undisturbed

/-- By induction on the program: every load fetches a page. -/
theorem TreeM.ReadOnly.reads {α : Type} {x : TreeM (Option Nat) α} (hx : x.ReadOnly) {t : PyTree} (h : t.pager.WF)
    (ht : t.pager.touched.isSome) :
    Exec.Post x.exec t (fun _ t' => Undisturbed t.pager t'.pager) fun _ t' => Undisturbed t.pager t'.pager := by
  induction x generalizing t with
  | pure a => exact .refl h
  | fail e => exact .refl h
  | load n k ih =>
    have hload : Exec.Post (PyTree.load n) t (fun _ t' => Undisturbed t.pager t'.pager)
        fun _ t' => Undisturbed t.pager t'.pager := by
      rw [Exec.Post, PyTree.load]
      cases hg : t.pager.get n with
      | error e => exact .refl h
      | ok r =>
        obtain ⟨data, pager⟩ := r
        have hr := Undisturbed.get h ht hg
        cases hh : t.hit n data with
        | some nd => simpa only [hh] using hr
        | none => cases hd : nodeFromBytes data.bytes <;> simpa only [hh, hd] using hr
    rw [Exec.Post] at hload ⊢
    rw [TreeM.exec]
    rcases hl : PyTree.load n t with ⟨nd, t'⟩ | ⟨e, t'⟩ <;> rw [hl] at hload
    · exact (ih nd (hx nd) hload.wf (by rw [hload.touched]; exact ht)).mono (fun _ _ hr => hload.trans hr)
        fun _ _ hr => hload.trans hr
    · exact hload
  | mutate => exact hx.elim
  | write => exact hx.elim
  | allocate => exact hx.elim

/-! ### INSERT, UPDATE and DELETE over the pages -/

namespace PyDatabase

open Database (InsertStmt UpdateStmt DeleteStmt Assignment literalValue fullRow assignRowid coerceRow encodeChecked
  insertWidth checkAssignment compileAssignments assignedRow)

/-- A program over the tree of the table; its fuel is the number of pages. -/
def onTree {α : Type} (x : Nat → Nat → TreeM (Option Nat) α) : Exec BulkWork α := fun w =>
  match (x w.tree.pager.numPages w.tmeta.rootPage).exec w.tree with
  | .ok a t => .ok a { w with tree := t }
  | .error e t => .error e { w with tree := t }

theorem onTree_of_ok {α : Type} {x : Nat → Nat → TreeM (Option Nat) α} {w : BulkWork} {a : α} {t : PyTree}
    (h : (x w.tree.pager.numPages w.tmeta.rootPage).exec w.tree = .ok a t) : onTree x w = .ok a { w with tree := t } := by
  rw [onTree, h]

/-- `btree.search`. -/
def search (rid : Int) : Exec BulkWork (Option Bytes) := onTree fun fuel root => BTree.lookup fuel root rid

/-- The row of a rowid, if there is one. -/
def searchRow (rid : Int) : Exec BulkWork (Option Row) := do
  match ← search rid with
  | none => return none
  | some blob => return some (← Exec.lift (decodeRow (← get).tmeta.types blob))

/-- `list(scan_table(meta))`. -/
def scanTable : Exec BulkWork (List (Int × Row)) := do
  let cells ← onTree BTree.items
  let types := (← get).tmeta.types
  Exec.lift (cells.mapM fun c => do return (c.1, ← decodeRow types c.2))

/-- The loop of `index_lookup`. -/
def searchRows : List Int → Exec BulkWork (List (Int × Row))
  | [] => return []
  | rid :: rids => do
    match ← searchRow rid with
    | none => searchRows rids
    | some row => return (rid, row) :: (← searchRows rids)

/-- `index_lookup`. -/
def indexLookup (col : String) (v : Value) : Exec BulkWork (List (Int × Row)) := do
  let w ← get
  match w.indexes (w.tmeta.name, col) with
  | none => return []
  | some idx =>
    let _ ← Exec.lift (w.tmeta.columnIndex col)
    searchRows ((idx.get v).insertionSort (· ≤ ·))

/-- The candidates of a shortcut; `none` when the table is scanned. -/
def shortcutRows : Option Access → Exec BulkWork (Option (List (Int × Row)))
  | some (.pk v) =>
    match coercePk v with
    | .error _ => return none
    | .ok rid => do return some (((← searchRow rid).map (rid, ·)).toList)
  | some (.index col v) => do return some (← indexLookup col v)
  | _ => return none

section Dml

variable (lib : PyLib) (jlib : JsonLib)

/-- `list(_matching_rows(meta, where))`. The table is scanned before the first row is tested. -/
def matchingRows (where? : Option Expr) : Exec BulkWork (List (Int × Row)) :=
  match where? with
  | none => scanTable
  | some w => do
    let m := (← get).tmeta
    let candidates ← shortcutRows (chooseShortcut m (findEquiPredicates (flattenAnd w)))
    let scope ← Exec.lift (Scope.empty.add m.name m)
    let whereFn ← Exec.lift (compileExpr lib scope [] false w)
    let source ← match candidates with
      | some rows => pure rows
      | none => scanTable
    Exec.lift (keepTrue (fun r => whereFn [some r.2] none) source)

/-- What is done with a row of `_insert` before the tree: its rowid, its values and their bytes. -/
def prepareInsert (m : TableMeta) (declared : Option (List String)) (width : Nat) (exprs : List Expr) :
    Except PyError (Int × Row × Bytes) := do
  if exprs.length ≠ width then throw .sqlError
  let values ← exprs.mapM literalValue
  let full ← fullRow m declared values
  let (rid, full) ← assignRowid m full
  let row ← coerceRow m.types full
  let blob ← encodeChecked m.types row
  return (rid, row, blob)

/-- `btree.insert` of a row, its counters and its index entries. -/
def putRow (rid : Int) (row : Row) (blob : Bytes) : Exec BulkWork Unit := do
  let m := (← get).tmeta
  let root ← insertCell .sqlError rid blob
  let w ← get
  set { w with tmeta := counted m root rid }
  let idxs ← Exec.lift (indexAdd (counted m root rid) rid row w.indexes)
  set (BulkWork.mk (counted m root rid) w.tree idxs)

/-- One row of `_insert`. -/
def insertRow (declared : Option (List String)) (width : Nat) (exprs : List Expr) : Exec BulkWork Unit := do
  let m := (← get).tmeta
  let (rid, row, blob) ← Exec.lift (prepareInsert m declared width exprs)
  if (← search rid).isSome then throw .sqlError
  putRow rid row blob

/-- What is done with a row of `_update` before the tree: its new values and their bytes. -/
def prepareUpdate (m : TableMeta) (assigns : List Assignment) (row : Row) : Except PyError (Row × Bytes) := do
  let new ← assignedRow m.types assigns row
  return (new, ← encodeChecked m.types new)

/-- `btree.upsert` of a row. -/
def upsertCell (rid : Int) (blob : Bytes) : Exec BulkWork Nat := fun w =>
  match w.tree.upsert w.tmeta.rootPage rid blob with
  | .ok root t => .ok root { w with tree := t }
  | .error e t => .error e { w with tree := t }

/-- One row of `_update`. -/
def updateRow (assigns : List Assignment) (r : Int × Row) : Exec BulkWork Unit := do
  let m := (← get).tmeta
  let (new, blob) ← Exec.lift (prepareUpdate m assigns r.2)
  let root ← upsertCell r.1 blob
  let w ← get
  let m := { m with rootPage := root }
  set (BulkWork.mk m w.tree w.indexes)
  let idxs ← Exec.lift (indexRemove m r.1 r.2 w.indexes)
  set (BulkWork.mk m w.tree idxs)
  let idxs ← Exec.lift (indexAdd m r.1 new idxs)
  set (BulkWork.mk m w.tree idxs)

/-- One row of `_delete`. -/
def deleteRow (r : Int × Row) : Exec BulkWork Unit := do
  let (root, found) ← onTree fun fuel root => BTree.delete fuel root r.1
  let w ← get
  let m := { w.tmeta with rootPage := root }
  set { w with tmeta := m }
  if found then
    let m := { m with rowCount := m.rowCount - 1 }
    set { w with tmeta := m }
    let idxs ← Exec.lift (indexRemove m r.1 r.2 w.indexes)
    set (BulkWork.mk m w.tree idxs)

/-- The rows of `_insert`. -/
def insertRows (stmt : InsertStmt) : Exec BulkWork Unit := do
  let width ← Exec.lift (insertWidth (← get).tmeta stmt.columns)
  stmt.rows.forM (insertRow stmt.columns width)

/-- The rows of `_update`. -/
def updateRows (stmt : UpdateStmt) : Exec BulkWork Unit := do
  let m := (← get).tmeta
  Exec.lift (stmt.assignments.forM (checkAssignment m))
  let matched ← matchingRows lib stmt.where?
  let assigns ← Exec.lift (compileAssignments lib m stmt.assignments)
  matched.forM (updateRow assigns)

/-- The rows of `_delete`. -/
def deleteRows (stmt : DeleteStmt) : Exec BulkWork Unit := do
  let matched ← matchingRows lib stmt.where?
  matched.forM deleteRow

/-- The statements that change rows. -/
inductive Dml
  | insert (stmt : InsertStmt)
  | update (stmt : UpdateStmt)
  | delete (stmt : DeleteStmt)

namespace Dml

def table : Dml → String
  | insert stmt => stmt.table
  | update stmt => stmt.table
  | delete stmt => stmt.table

def rows : Dml → Exec BulkWork Unit
  | insert stmt => insertRows stmt
  | update stmt => updateRows lib stmt
  | delete stmt => deleteRows lib stmt

end Dml

/-- `_ensure_snapshot`. The entries it keeps share the `indexes` of the live ones, so CREATE INDEX and DROP INDEX, which
are steps `memory` of a session, change both. INSERT, UPDATE and DELETE change neither. -/
def ensureSnapshot (s : PyDatabase) : PyDatabase :=
  if s.snapshot.isNone ∧ s.inTxn then { s with snapshot := some (s.catalog, s.indexes) } else s

/-- `_insert`, `_update` and `_delete`. -/
def dispatch (stmt : Dml) : Exec PyDatabase Unit := do
  modify ensureSnapshot
  onMeta stmt.table (stmt.rows lib)
  saveCatalog jlib

/-- `_run_one`: outside a transaction the statement is one of its own. -/
def runOne (stmt : Dml) : Exec PyDatabase Unit := fun s =>
  if s.inTxn then dispatch lib jlib stmt s
  else
    match beginLocked s with
    | .error e s => .error e s
    | .ok _ s =>
      match dispatch lib jlib stmt s with
      | .ok _ s => commitLocked s
      | .error e s =>
        match rollbackLocked s with
        | .error e s => .error e s
        | .ok _ s => .error e s

end Dml

/-! ### What reading leaves -/

section Reading

variable {α : Type} {R : BulkWork → BulkWork → Prop}

/-- The programs that only read keep to `R`. -/
def ReadsMove (R : BulkWork → BulkWork → Prop) : Prop :=
  ∀ {α : Type} (x : Nat → Nat → TreeM (Option Nat) α), (∀ fuel root, (x fuel root).ReadOnly) → Exec.Moves R (onTree x)

theorem ReadsMove.search (hR : ReadsMove R) (rid : Int) : Exec.Moves R (search rid) :=
  hR _ fun fuel root => BTree.readOnly_lookup fuel root rid

variable [Std.Refl R] [IsTrans BulkWork R]

theorem ReadsMove.searchRow (hR : ReadsMove R) (rid : Int) : Exec.Moves R (searchRow rid) := by
  refine (hR.search rid).bind fun found => ?_
  cases found with
  | none => exact .pure _
  | some blob => exact Exec.Moves.get.bind fun w => (Exec.Moves.lift _).bind fun row => .pure _

theorem ReadsMove.scanTable (hR : ReadsMove R) : Exec.Moves R scanTable :=
  (hR _ BTree.readOnly_items).bind fun _ => Exec.Moves.get.bind fun _ => .lift _

theorem ReadsMove.searchRows (hR : ReadsMove R) (rids : List Int) : Exec.Moves R (searchRows rids) := by
  induction rids with
  | nil => exact .pure _
  | cons rid rids ih =>
    rw [PyDatabase.searchRows]
    refine (hR.searchRow rid).bind fun found => ?_
    cases found with
    | none => exact ih
    | some row => exact ih.bind fun _ => .pure _

theorem ReadsMove.indexLookup (hR : ReadsMove R) (col : String) (v : Value) : Exec.Moves R (indexLookup col v) := by
  rw [PyDatabase.indexLookup]
  refine Exec.Moves.get.bind fun w => ?_
  cases w.indexes (w.tmeta.name, col) with
  | none => exact .pure _
  | some idx => exact (Exec.Moves.lift _).bind fun _ => hR.searchRows _

theorem ReadsMove.shortcutRows (hR : ReadsMove R) (access : Option Access) : Exec.Moves R (shortcutRows access) := by
  rcases access with _ | _ | v | ⟨col, v⟩
  · exact .pure _
  · exact .pure _
  · rw [PyDatabase.shortcutRows]
    cases coercePk v with
    | error e => exact .pure _
    | ok rid => exact (hR.searchRow rid).bind fun _ => .pure _
  · exact (hR.indexLookup col v).bind fun _ => .pure _

theorem ReadsMove.matchingRows (hR : ReadsMove R) (lib : PyLib) (where? : Option Expr) :
    Exec.Moves R (matchingRows lib where?) := by
  rcases where? with _ | w
  · exact hR.scanTable
  · rw [PyDatabase.matchingRows]
    refine Exec.Moves.get.bind fun _ => (hR.shortcutRows _).bind fun candidates => (Exec.Moves.lift _).bind fun _ =>
      (Exec.Moves.lift _).bind fun _ => ?_
    cases candidates with
    | none => exact hR.scanTable.bind fun _ => .lift _
    | some rows => exact .lift _

end Reading

/-- `w'` is `w` after reading. -/
structure Seen (w w' : BulkWork) : Prop where
  tmeta : w'.tmeta = w.tmeta
  indexes : w'.indexes = w.indexes
  reads : Undisturbed w.tree.pager w'.tree.pager

/-- The state of an open transaction. -/
def Open (w : BulkWork) : Prop := w.tree.pager.WF ∧ w.tree.pager.touched.isSome

theorem Open.refl {w : BulkWork} (h : Open w) : Seen w w := ⟨rfl, rfl, .refl h.1⟩

/-- `w'` is `w` after reading in a transaction. -/
def SeenIfOpen (w w' : BulkWork) : Prop := Open w → Seen w w'

instance : Std.Refl SeenIfOpen := ⟨fun _ hw => hw.refl⟩

instance : IsTrans BulkWork SeenIfOpen where
  trans w w' w'' h h' hw := by
    have hs := h hw
    have hs' := h' ⟨hs.reads.wf, by rw [hs.reads.touched]; exact hw.2⟩
    exact ⟨hs'.tmeta.trans hs.tmeta, hs'.indexes.trans hs.indexes, hs.reads.trans hs'.reads⟩

theorem readsMove_seen : ReadsMove SeenIfOpen := by
  intro α x hx w
  rw [Exec.Post, onTree]
  rcases hx' : (x w.tree.pager.numPages w.tmeta.rootPage).exec w.tree with ⟨a, t⟩ | ⟨e, t⟩
  · exact fun hw => ⟨rfl, rfl, ((hx _ _).reads hw.1 hw.2).of_ok hx'⟩
  · exact fun hw => ⟨rfl, rfl, ((hx _ _).reads hw.1 hw.2).of_error hx'⟩

theorem seen_search {w : BulkWork} (hw : Open w) (rid : Int) :
    Exec.Post (search rid) w (fun _ w' => Seen w w') fun _ w' => Seen w w' :=
  (readsMove_seen.search rid w).mono (fun _ _ h => h hw) fun _ _ h => h hw

theorem seen_matchingRows {w : BulkWork} (hw : Open w) (lib : PyLib) (where? : Option Expr) :
    Exec.Post (matchingRows lib where?) w (fun _ w' => Seen w w') fun _ w' => Seen w w' :=
  (readsMove_seen.matchingRows lib where? w).mono (fun _ _ h => h hw) fun _ _ h => h hw

/-! ### The statements are steps of a session -/

/-- If the tree of `w` is the tree of a session, so is the tree of `w'`. -/
def Steps (w w' : BulkWork) : Prop :=
  ∀ (jlib : JsonLib) (s : PyDatabase), Reachable jlib { s with tree := w.tree } → Reachable jlib { s with tree := w'.tree }

instance : Std.Refl Steps := ⟨fun _ _ _ h => h⟩

instance : IsTrans BulkWork Steps := ⟨fun _ _ _ h h' jlib s hs => h' jlib s (h jlib s hs)⟩

theorem steps_exec {α : Type} {w w' : BulkWork} (x : TreeM (Option Nat) α)
    (h : (∃ a, x.exec w.tree = .ok a w'.tree) ∨ ∃ e, x.exec w.tree = .error e w'.tree) : Steps w w' :=
  fun _ s hs => Reachable.pages (s := { s with tree := w.tree }) x hs h

theorem moves_onTree {α : Type} (x : Nat → Nat → TreeM (Option Nat) α) : Exec.Moves Steps (onTree x) := by
  intro w
  rw [Exec.Post, onTree]
  rcases hx : (x w.tree.pager.numPages w.tmeta.rootPage).exec w.tree with ⟨a, t⟩ | ⟨e, t⟩
  · exact steps_exec _ (.inl ⟨a, hx⟩)
  · exact steps_exec _ (.inr ⟨e, hx⟩)

theorem moves_insertCell (dup : PyError) (rid : Int) (blob : Bytes) : Exec.Moves Steps (insertCell dup rid blob) := by
  intro w
  rw [Exec.Post, insertCell, PyTree.insert]
  rcases hx : (BTree.insert w.tree.pager.numPages w.tmeta.rootPage rid blob).exec w.tree with ⟨root, t⟩ | ⟨e, t⟩
  · exact steps_exec _ (.inl ⟨root, hx⟩)
  · cases e <;> exact steps_exec _ (.inr ⟨_, hx⟩)

/-- A state with the same tree. -/
theorem steps_of_tree {w w' : BulkWork} (h : w'.tree = w.tree) : Steps w w' := fun _ s hs => by rw [h]; exact hs

theorem moves_putRow (rid : Int) (row : Row) (blob : Bytes) : Exec.Moves Steps (putRow rid row blob) := by
  refine Exec.Moves.get.bind fun w => (moves_insertCell _ rid blob).bind fun root w => ?_
  rw [Exec.post_bind, Exec.post_get, Exec.post_bind, Exec.post_set, Exec.post_bind, Exec.post_lift]
  exact ⟨fun _ _ => steps_of_tree rfl, fun _ _ => steps_of_tree rfl⟩

theorem moves_insertRow (declared : Option (List String)) (width : Nat) (exprs : List Expr) :
    Exec.Moves Steps (insertRow declared width exprs) := by
  refine Exec.Moves.get.bind fun w => (Exec.Moves.lift _).bind fun r => ?_
  obtain ⟨rid, row, blob⟩ := r
  refine (moves_onTree _).bind fun found => ?_
  cases found with
  | none => exact moves_putRow rid row blob
  | some blob' => exact .throw _

theorem moves_upsertCell (rid : Int) (blob : Bytes) : Exec.Moves Steps (upsertCell rid blob) := by
  intro w
  rw [Exec.Post, upsertCell, PyTree.upsert, PyTree.insert]
  rcases hx : (BTree.insert w.tree.pager.numPages w.tmeta.rootPage rid blob).exec w.tree with ⟨root, t⟩ | ⟨e, t⟩
  · exact steps_exec _ (.inl ⟨root, hx⟩)
  · have hfirst : Steps w { w with tree := t } := steps_exec _ (.inr ⟨e, hx⟩)
    cases e
    case duplicateKey key =>
      simp only
      rcases hy : (BTree.overwrite w.tmeta.rootPage rid blob t.pager.numPages w.tmeta.rootPage).exec t with ⟨root, t'⟩ | ⟨e, t'⟩
      · exact IsTrans.trans _ _ _ hfirst (steps_exec _ (.inl ⟨root, hy⟩))
      · exact IsTrans.trans _ _ _ hfirst (steps_exec _ (.inr ⟨e, hy⟩))
    all_goals exact hfirst

theorem moves_updateRow (assigns : List Assignment) (r : Int × Row) : Exec.Moves Steps (updateRow assigns r) := by
  refine Exec.Moves.get.bind fun w => (Exec.Moves.lift _).bind fun p => ?_
  obtain ⟨new, blob⟩ := p
  refine (moves_upsertCell r.1 blob).bind fun root w => ?_
  rw [Exec.post_bind, Exec.post_get, Exec.post_bind, Exec.post_set, Exec.post_bind, Exec.post_lift]
  refine ⟨fun _ _ => ?_, fun _ _ => steps_of_tree rfl⟩
  rw [Exec.post_bind, Exec.post_set, Exec.post_bind, Exec.post_lift]
  exact ⟨fun _ _ => steps_of_tree rfl, fun _ _ => steps_of_tree rfl⟩

theorem moves_deleteRow (r : Int × Row) : Exec.Moves Steps (deleteRow r) := by
  refine (moves_onTree _).bind fun p w => ?_
  obtain ⟨root, found⟩ := p
  rw [Exec.post_bind, Exec.post_get, Exec.post_bind, Exec.post_set]
  cases found with
  | false => exact steps_of_tree rfl
  | true =>
    change Exec.Post (set _ >>= _) _ _ _
    rw [Exec.post_bind, Exec.post_set, Exec.post_bind, Exec.post_lift]
    exact ⟨fun _ _ => steps_of_tree rfl, fun _ _ => steps_of_tree rfl⟩

/-- By cases on the statement. -/
theorem moves_rows (lib : PyLib) (stmt : Dml) : Exec.Moves Steps (stmt.rows lib) := by
  have hread : ReadsMove Steps := fun x _ => moves_onTree x
  cases stmt with
  | insert stmt =>
    exact Exec.Moves.get.bind fun w => (Exec.Moves.lift _).bind fun width => .forM (moves_insertRow stmt.columns width) _
  | update stmt =>
    exact Exec.Moves.get.bind fun w => (Exec.Moves.lift _).bind fun _ => (hread.matchingRows lib _).bind fun matched =>
      (Exec.Moves.lift _).bind fun assigns => .forM (moves_updateRow assigns) _
  | delete stmt => exact (hread.matchingRows lib _).bind fun matched => .forM moves_deleteRow _

section Dml

variable {lib : PyLib} {jlib : JsonLib} {s s' : PyDatabase}

theorem ensureSnapshot_eq (s : PyDatabase) : ∃ snapshot, ensureSnapshot s = { s with snapshot := snapshot } := by
  rw [ensureSnapshot]
  split
  · exact ⟨_, rfl⟩
  · exact ⟨s.snapshot, rfl⟩

theorem modify_ensureSnapshot (s : PyDatabase) :
    (modify ensureSnapshot : Exec PyDatabase PUnit) s = .ok ⟨⟩ (ensureSnapshot s) := rfl

theorem reachable_onMeta {table : String} {x : Exec BulkWork Unit} (hx : Exec.Moves Steps x) (hs : Reachable jlib s) :
    Exec.Post (onMeta table x) s (fun _ => Reachable jlib) fun _ => Reachable jlib := by
  rw [Exec.Post, onMeta]
  cases hm : s.catalog.get table with
  | error e => exact hs
  | ok m =>
    have hput : ∀ w, Steps ⟨m, s.tree, s.indexes⟩ w → Reachable jlib (s.put table w) := fun w hw =>
      .memory (s := { s with tree := w.tree }) (s.catalog.setTable table.toLower w.tmeta) w.indexes s.snapshot (hw jlib s hs)
    have hrows := hx ⟨m, s.tree, s.indexes⟩
    rw [Exec.Post] at hrows
    simp only
    rcases hr : x ⟨m, s.tree, s.indexes⟩ with ⟨u, w⟩ | ⟨e, w⟩ <;> rw [hr] at hrows <;> exact hput w hrows

/-- Saving the catalog changes nothing when it raises. -/
theorem saveCatalog_error {e : PyError} (hx : saveCatalog jlib s = .error e s') : s' = s := by
  unfold saveCatalog at hx
  split at hx
  · cases hx
    rfl
  · split at hx
    · cases hx
      rfl
    · cases hx

theorem reachable_dispatch (lib : PyLib) (stmt : Dml) (hs : Reachable jlib s) :
    Exec.Post (dispatch lib jlib stmt) s (fun _ => Reachable jlib) fun _ => Reachable jlib := by
  obtain ⟨snapshot, hsnap⟩ := ensureSnapshot_eq s
  have hmodify : Exec.Post (modify ensureSnapshot : Exec PyDatabase PUnit) s (fun _ => Reachable jlib) fun _ _ => False := by
    rw [Exec.Post, modify_ensureSnapshot, hsnap]
    exact .memory s.catalog s.indexes snapshot hs
  rw [dispatch, Exec.post_bind]
  refine hmodify.mono (fun _ t ht => ?_) fun _ _ h => h.elim
  rw [Exec.post_bind]
  refine (reachable_onMeta (moves_rows lib stmt) ht).mono (fun _ t ht => ?_) fun _ _ h => h
  rw [Exec.Post]
  rcases hsave : saveCatalog jlib t with ⟨u, t'⟩ | ⟨e, t'⟩
  · exact .saved ht hsave
  · rw [saveCatalog_error hsave]
    exact ht

theorem commitLocked_error {e : PyError} (hx : commitLocked s = .error e s') : s' = s := by
  unfold commitLocked at hx
  split at hx
  · cases hx
    rfl
  · split at hx
    · cases hx
      rfl
    · cases hx

theorem rollbackLocked_error {e : PyError} (hx : rollbackLocked s = .error e s') : s' = s := by
  unfold rollbackLocked at hx
  split at hx
  · cases hx
    rfl
  · simp only at hx
    split at hx <;> cases hx

/-- A statement, whether it raises or not, leaves a state of the session. -/
theorem reachable_runOne (stmt : Dml) (hs : Reachable jlib s) :
    Exec.Post (runOne lib jlib stmt) s (fun _ => Reachable jlib) fun _ => Reachable jlib := by
  rw [Exec.Post, runOne]
  by_cases ht : s.inTxn = true
  · rw [if_pos ht]
    exact reachable_dispatch lib stmt hs
  rw [if_neg ht]
  have hbegin := beginLocked_eq hs.ok (by simpa using ht)
  have hpost := reachable_dispatch lib stmt (.began hs hbegin)
  rw [hbegin]
  rw [Exec.Post] at hpost
  simp only
  rcases hx : dispatch lib jlib stmt { s with tree := s.tree.begun, snapshot := none, inTxn := true } with ⟨u, t⟩ | ⟨e, t⟩ <;>
    rw [hx] at hpost <;> simp only
  · rcases hc : commitLocked t with ⟨u, t'⟩ | ⟨e, t'⟩
    · exact .committed hpost hc
    · rw [commitLocked_error hc]
      exact hpost
  · rcases hr : rollbackLocked t with ⟨u, t'⟩ | ⟨e', t'⟩
    · exact .rolledBack hpost hr
    · rw [rollbackLocked_error hr]
      exact hpost

end Dml

end PyDatabase

end LeafDb
