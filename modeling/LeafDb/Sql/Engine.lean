import LeafDb.Base.Exec
import LeafDb.Sql.RowCodec
import LeafDb.Sql.Where

/-!
# Statements that change tables and indexes (`engine.py`, `catalog.py`)

A session's catalog, the cells of its trees and its in-memory indexes, with every operation that changes
them. An operation that raises keeps what it had changed by then. A tree is the map its operations
implement, as its cells in key order: page numbers (root pages, the free list) are left out, and whether
the text of the catalog fits page 0 is an argument (`fits`). Messages are left out.
-/

namespace LeafDb

/-- A computation that may raise and keeps the state it has reached. -/
abbrev Exec (σ α : Type) := EStateM PyError σ α

/-! ### Trees as maps -/

namespace Cells

/-- `BTree.search`. -/
def search (cells : List Cell) (key : Int) : Option Bytes := (cells.find? (·.1 = key)).map Prod.snd

/-- `BTree.insert`. -/
def insert (cells : List Cell) (key : Int) (value : Bytes) : Except PyError (List Cell) :=
  if maxValueSize < value.length then .error .valueError
  else if (search cells key).isSome then .error (.duplicateKey key)
  else if IsI64 key then .ok (cells.orderedInsert (fun a b => a.1 ≤ b.1) (key, value))
  else .error .structError

/-- `BTree.upsert`. -/
def upsert (cells : List Cell) (key : Int) (value : Bytes) : Except PyError (List Cell) :=
  match insert cells key value with
  | .error (.duplicateKey _) => .ok (cells.map fun c => if c.1 = key then (key, value) else c)
  | r => r

/-- `BTree.delete`: the cells left, and whether the key was there. -/
def delete (cells : List Cell) (key : Int) : List Cell × Bool :=
  (cells.filter fun c => decide (c.1 ≠ key), (search cells key).isSome)

end Cells

/-! ### Buckets of rowids -/

namespace Buckets

/-- `d.setdefault(k, set()).add(rid)`. -/
def insert (d : Buckets Int) (k : Value) (rid : Int) : Buckets Int :=
  match d with
  | [] => [(k, [rid])]
  | e :: d => if e.1.pyEq k then (e.1, List.insert rid e.2) :: d else e :: insert d k rid

/-- `bucket = d.get(k)`, and `bucket.discard(rid)` if there is one. -/
def discard (d : Buckets Int) (k : Value) (rid : Int) : Buckets Int :=
  match d with
  | [] => []
  | e :: d => if e.1.pyEq k then (e.1, e.2.erase rid) :: d else e :: discard d k rid

end Buckets

/-! ### The state -/

/-- A table of the catalog and its tree. -/
structure Stored where
  tmeta : TableMeta
  cells : List Cell

/-- `self.indexes`, from table name and column. -/
abbrev Indexes := String × String → Option (Buckets Int)

/-- What a session knows of its database. -/
structure Database where
  tables : List Stored
  indexes : Indexes

/-- What a statement about one table works on. -/
structure Work where
  table : Stored
  indexes : Indexes

/-- `scan_table`. -/
def Stored.scanTable (t : Stored) : Except PyError (List (Int × Row)) :=
  t.cells.mapM fun c => do return (c.1, ← decodeRow t.tmeta.types c.2)

def Work.view (w : Work) : Except PyError TableData := do
  return ⟨w.table.tmeta, ← w.table.scanTable, fun col => w.indexes (w.table.tmeta.name, col)⟩

namespace Database

/-- The session on an empty database. -/
def empty : Database := ⟨[], fun _ => none⟩

/-- `lookup_meta`, `catalog.get`. -/
def lookupMeta (s : Database) (name : String) : Except PyError Stored :=
  match s.tables.find? (·.tmeta.name = name.toLower) with
  | some t => .ok t
  | none => .error .catalogError

def put (s : Database) (w : Work) : Database :=
  ⟨s.tables.map fun t => if t.tmeta.name = w.table.tmeta.name then w.table else t, w.indexes⟩

/-- A statement about the table `name`: `meta` and `self.indexes` are changed in place. -/
def onTable {α : Type} (name : String) (x : Exec Work α) : Exec Database α := fun s =>
  match s.lookupMeta name with
  | .error e => .error e s
  | .ok t =>
    match x ⟨t, s.indexes⟩ with
    | .ok a w => .ok a (s.put w)
    | .error e w => .error e (s.put w)

/-- `catalog.save`. -/
def save (fits : Bool) : Exec Database Unit := if fits then pure () else throw .catalogError

end Database

/-! ### Index maintenance -/

/-- `row[meta.column_index(col)]`. -/
def columnValue (m : TableMeta) (row : Row) (col : String) : Except PyError Value := do
  match row[← m.columnIndex col]? with
  | some v => return v
  | none => throw .indexError

/-- `for col in meta.indexes`, changing the entry of each column in `self.indexes`. -/
def forIndexes (name : String) (change : String → Option (Buckets Int) → Except PyError (Option (Buckets Int)))
    (cols : List String) (idxs : Indexes) : Except PyError Indexes :=
  cols.foldlM (fun idxs col => do
    return Function.update idxs (name, col) (← change col (idxs (name, col)))) idxs

/-- `_index_add`. -/
def indexAdd (m : TableMeta) (rid : Int) (row : Row) : Indexes → Except PyError Indexes :=
  forIndexes m.name (fun col idx => do
    let v ← columnValue m row col
    return if v = .none then idx else some ((idx.getD []).insert v rid)) (m.indexes.map Prod.fst)

/-- `_index_remove`. -/
def indexRemove (m : TableMeta) (rid : Int) (row : Row) : Indexes → Except PyError Indexes :=
  forIndexes m.name (fun col idx => do
    let v ← columnValue m row col
    return if v = .none then idx else idx.map (·.discard v rid)) (m.indexes.map Prod.fst)

/-- The index of a column built from the rows of its table. -/
def buildIndex (m : TableMeta) (col : String) (rows : List (Int × Row)) : Except PyError (Buckets Int) :=
  rows.foldlM (fun idx r => do
    let v ← columnValue m r.2 col
    return if v = .none then idx else idx.insert v r.1) []

/-- `_rebuild_indexes`. -/
def rebuildIndexes (tables : List Stored) : Except PyError Indexes :=
  tables.foldlM (fun idxs t =>
    forIndexes t.tmeta.name (fun col _ => do return some (← buildIndex t.tmeta col (← t.scanTable)))
      (t.tmeta.indexes.map Prod.fst) idxs) fun _ => none

namespace Database

/-! ### INSERT and `bulk_insert` -/

structure InsertStmt where
  table : String
  columns : Option (List String)
  rows : List (List Expr)

/-- `_literal_value`. -/
def literalValue : Expr → Except PyError Value
  | .literal v => .ok v
  | .unary .neg (.literal (.bool _)) => .error .sqlError
  | .unary .neg (.literal v) => if v.isNumber then .ok v.negate else .error .typeError
  | _ => .error .sqlError

/-- `full` of `_insert`: the values at their columns. -/
def fullRow (m : TableMeta) (declared : Option (List String)) (values : List Value) : Except PyError Row :=
  match declared with
  | none => .ok values
  | some cols =>
    (cols.zip values).foldlM (fun full p => do return full.set (← m.columnIndex p.1) p.2)
      (List.replicate m.columns.length .none)

/-- The rowid of a new row, and the row with its primary key filled in. -/
def assignRowid (m : TableMeta) (full : Row) : Except PyError (Int × Row) :=
  match m.pkIndex with
  | none => .ok (m.nextRowid, full)
  | some i =>
    match full[i]? with
    | none => .error .indexError
    | some v => do
      let rid ← if v = .none then .ok m.nextRowid else coercePk v
      return (rid, full.set i (.int rid))

def coerceRow (types : List ColType) (full : Row) : Except PyError Row :=
  (types.zip full).mapM fun p => coerceValue p.1 p.2

/-- `encode_row` and the test of the size. -/
def encodeChecked (types : List ColType) (row : Row) : Except PyError Bytes := do
  let blob ← encodeRow types row
  if maxValueSize < blob.length then throw .sqlError else return blob

/-- A duplicate key raises `dup`. -/
def uniqueError {α : Type} (dup : PyError) : Except PyError α → Except PyError α
  | .error (.duplicateKey _) => .error dup
  | r => r

/-- `btree.insert` of a new row, its counters and its index entries. -/
def putRow (dup : PyError) (rid : Int) (row : Row) (blob : Bytes) : Exec Work Unit := do
  let w ← get
  let cells ← Exec.lift (uniqueError dup (Cells.insert w.table.cells rid blob))
  let m := w.table.tmeta
  let m := { m with nextRowid := max m.nextRowid (rid + 1), rowCount := m.rowCount + 1 }
  set (Work.mk ⟨m, cells⟩ w.indexes)
  let idxs ← Exec.lift (indexAdd m rid row w.indexes)
  set (Work.mk ⟨m, cells⟩ idxs)

/-- One row of `_insert`. The primary key is an integer once it is assigned. -/
def insertRow (declared : Option (List String)) (width : Nat) (exprs : List Expr) : Exec Work Unit := do
  if exprs.length ≠ width then throw .sqlError
  let w ← get
  let values ← Exec.lift (exprs.mapM literalValue)
  let full ← Exec.lift (fullRow w.table.tmeta declared values)
  let (rid, full) ← Exec.lift (assignRowid w.table.tmeta full)
  let row ← Exec.lift (coerceRow w.table.tmeta.types full)
  let blob ← Exec.lift (encodeChecked w.table.tmeta.types row)
  if (Cells.search w.table.cells rid).isSome then throw .sqlError
  putRow .sqlError rid row blob

/-- The number of values of a row of INSERT. -/
def insertWidth (m : TableMeta) : Option (List String) → Except PyError Nat
  | none => .ok m.columns.length
  | some cols =>
    if ¬cols.Nodup then .error .sqlError
    else if ∃ c ∈ cols, c ∉ m.colnames then .error .catalogError
    else .ok cols.length

/-- `_insert`. -/
def insert (fits : Bool) (stmt : InsertStmt) : Exec Database Unit := do
  onTable stmt.table do
    let width ← Exec.lift (insertWidth (← get).table.tmeta stmt.columns)
    stmt.rows.forM (insertRow stmt.columns width)
  save fits

/-- One row of `executor_insert_bulk`. -/
def bulkRow (full : Row) : Exec Work Unit := do
  let w ← get
  if full.length ≠ w.table.tmeta.columns.length then throw .sqlError
  let (rid, full) ← Exec.lift (assignRowid w.table.tmeta full)
  let row ← Exec.lift (coerceRow w.table.tmeta.types full)
  let blob ← Exec.lift (encodeChecked w.table.tmeta.types row)
  -- the text of its SQLError uses `pk`, which is not defined
  putRow .nameError rid row blob

/-- `executor_insert_bulk`. -/
def bulkInsert (fits : Bool) (table : String) (rows : List Row) : Exec Database Unit := do
  onTable table (rows.forM bulkRow)
  save fits

/-! ### UPDATE and DELETE -/

structure UpdateStmt where
  table : String
  assignments : List (String × Expr)
  where? : Option Expr

structure DeleteStmt where
  table : String
  where? : Option Expr

/-- An assignment: the place of its column and its compiled expression. -/
abbrev Assignment := Nat × Closure

/-- The new row of `_update`; every expression sees the old row. -/
def assignedRow (types : List ColType) (assigns : List Assignment) (row : Row) : Except PyError Row :=
  assigns.foldlM (fun new a => do
    let v ← a.2 [some row] none
    match types[a.1]? with
    | some t => return new.set a.1 (← coerceValue t v)
    | none => throw .indexError) row

/-- One row of `_update`. -/
def updateRow (assigns : List Assignment) (r : Int × Row) : Exec Work Unit := do
  let w ← get
  let m := w.table.tmeta
  let new ← Exec.lift (assignedRow m.types assigns r.2)
  let blob ← Exec.lift (encodeChecked m.types new)
  let cells ← Exec.lift (Cells.upsert w.table.cells r.1 blob)
  set (Work.mk ⟨m, cells⟩ w.indexes)
  let idxs ← Exec.lift (indexRemove m r.1 r.2 w.indexes)
  set (Work.mk ⟨m, cells⟩ idxs)
  let idxs ← Exec.lift (indexAdd m r.1 new idxs)
  set (Work.mk ⟨m, cells⟩ idxs)

def checkAssignment (m : TableMeta) (a : String × Expr) : Except PyError Unit :=
  if a.1 ∉ m.colnames then .error .catalogError
  else if some a.1 = m.pkColumn then .error .sqlError
  else .ok ()

section Dml

variable (lib : PyLib)

def compileAssignments (m : TableMeta) (assignments : List (String × Expr)) : Except PyError (List Assignment) := do
  let scope ← Scope.empty.add m.name m
  assignments.mapM fun a => do return (← m.columnIndex a.1, ← compileExpr lib scope [] false a.2)

/-- `_update`. -/
def update (fits : Bool) (stmt : UpdateStmt) : Exec Database Unit := do
  onTable stmt.table do
    let w ← get
    Exec.lift (stmt.assignments.forM (checkAssignment w.table.tmeta))
    let matched ← Exec.lift (do matchingRows lib (← w.view) stmt.where?)
    let assigns ← Exec.lift (compileAssignments lib w.table.tmeta stmt.assignments)
    matched.forM (updateRow assigns)
  save fits

/-- One row of `_delete`. -/
def deleteRow (r : Int × Row) : Exec Work Unit := do
  let w ← get
  let (cells, found) := Cells.delete w.table.cells r.1
  if found then
    let m := { w.table.tmeta with rowCount := w.table.tmeta.rowCount - 1 }
    set (Work.mk ⟨m, cells⟩ w.indexes)
    let idxs ← Exec.lift (indexRemove m r.1 r.2 w.indexes)
    set (Work.mk ⟨m, cells⟩ idxs)

/-- `_delete`. -/
def delete (fits : Bool) (stmt : DeleteStmt) : Exec Database Unit := do
  onTable stmt.table do
    let w ← get
    let matched ← Exec.lift (do matchingRows lib (← w.view) stmt.where?)
    matched.forM deleteRow
  save fits

end Dml

/-! ### Tables and indexes -/

/-- A column of CREATE TABLE, its type still a name. -/
structure ColumnSpec where
  name : String
  type : String
  pk : Bool

/-- `validate_column_def`. -/
def validateColumnDef (c : ColumnSpec) : Except PyError ColumnDef :=
  if c.type = "INT" then .ok ⟨c.name.toLower, .int, c.pk⟩
  else if c.type = "FLOAT" then .ok ⟨c.name.toLower, .float, c.pk⟩
  else if c.type = "TEXT" then .ok ⟨c.name.toLower, .text, c.pk⟩
  else .error .catalogError

/-- The columns of `_create_table`. -/
def tableColumns (specs : List ColumnSpec) : Except PyError (List ColumnDef) := do
  let cols ← specs.foldlM (fun cols c => do
    let norm ← validateColumnDef c
    if norm.name ∈ cols.map ColumnDef.name then throw .catalogError
    if norm.pk ∧ norm.type ≠ .int then throw .catalogError
    return cols ++ [norm]) []
  if 1 < (cols.filter ColumnDef.pk).length then throw .catalogError else return cols

/-- `_create_table`; `root` is the page of its empty leaf. -/
def createTable (fits : Bool) (root : Nat) (name : String) (specs : List ColumnSpec) : Exec Database Unit := do
  let cols ← Exec.lift (tableColumns specs)
  let s ← get
  if name ∈ s.tables.map (·.tmeta.name) then throw .catalogError
  set (Database.mk (s.tables ++ [⟨⟨name, cols, root, 0, 1, []⟩, []⟩]) s.indexes)
  save fits

/-- `_create_index`. -/
def createIndex (fits : Bool) (name table column : String) : Exec Database Unit := do
  onTable table do
    let w ← get
    let m := w.table.tmeta
    if column ∉ m.colnames then throw .catalogError
    if some column = m.pkColumn then throw .catalogError
    if column ∈ m.indexes.map Prod.fst then throw .catalogError
    let t := { w.table with tmeta := { m with indexes := m.indexes ++ [(column, name)] } }
    set (Work.mk t w.indexes)
    let idx ← Exec.lift (do buildIndex t.tmeta column (← t.scanTable))
    set (Work.mk t (Function.update w.indexes (m.name, column) (some idx)))
  save fits

/-- `_drop_table`. -/
def dropTable (fits : Bool) (name : String) : Exec Database Unit := do
  let s ← get
  let t ← Exec.lift (s.lookupMeta name)
  let m := t.tmeta
  let gone := fun key : String × String => key.1 = m.name ∧ key.2 ∈ m.indexes.map Prod.fst
  set (Database.mk (s.tables.filter fun t => decide (t.tmeta.name ≠ m.name))
    fun key => if gone key then none else s.indexes key)
  save fits

/-- The first table and column with an index of that name. -/
def findIndex (tables : List Stored) (name : String) : Option (String × String) :=
  tables.findSome? fun t => (t.tmeta.indexes.find? (·.2 = name)).map fun e => (t.tmeta.name, e.1)

/-- `_drop_index`. -/
def dropIndex (fits : Bool) (name : String) : Exec Database Unit := do
  let s ← get
  match findIndex s.tables name with
  | none => throw .catalogError
  | some (table, col) =>
    let drop := fun t : Stored =>
      if t.tmeta.name = table then
        { t with tmeta := { t.tmeta with indexes := t.tmeta.indexes.filter fun e => decide (e.1 ≠ col) } }
      else t
    set (Database.mk (s.tables.map drop) (Function.update s.indexes (table, col) none))
    save fits

/-- `vacuum`: `bulk_load` builds a tree of the same cells. -/
def vacuum (fits : Bool) (table : String) : Exec Database Unit := do
  onTable table (pure ())
  save fits

/-- A session opened on the database: `Catalog.load` and `_rebuild_indexes`. -/
def reopen : Exec Database Unit := do
  let s ← get
  set { s with indexes := ← Exec.lift (rebuildIndexes s.tables) }

/-! ### Runs -/

inductive Op
  | insert (stmt : InsertStmt)
  | update (stmt : UpdateStmt)
  | delete (stmt : DeleteStmt)
  | bulkInsert (table : String) (rows : List Row)
  | vacuum (table : String)
  | createTable (root : Nat) (name : String) (specs : List ColumnSpec)
  | dropTable (name : String)
  | createIndex (name table column : String)
  | dropIndex (name : String)
  | reopen

def exec (lib : PyLib) (fits : Bool) : Op → Exec Database Unit
  | .insert stmt => Database.insert fits stmt
  | .update stmt => Database.update lib fits stmt
  | .delete stmt => Database.delete lib fits stmt
  | .bulkInsert table rows => Database.bulkInsert fits table rows
  | .vacuum table => Database.vacuum fits table
  | .createTable root name specs => Database.createTable fits root name specs
  | .dropTable name => Database.dropTable fits name
  | .createIndex name table column => Database.createIndex fits name table column
  | .dropIndex name => Database.dropIndex fits name
  | .reopen => Database.reopen

/-- An operation that completes normally. -/
def step (lib : PyLib) (s : Database) (op : Op) : Option Database :=
  match exec lib true op s with
  | .ok _ s' => some s'
  | .error _ _ => none

end Database

end LeafDb
