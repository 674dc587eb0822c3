import LeafDb.Base.Result
import LeafDb.Sql.Expr

/-!
# Planning and running the FROM and WHERE part of a SELECT (`planner.py`, `executor.py`)

A table is what a statement reads of it: its catalog entry, the rows a scan of its tree decodes to, and
its in-memory indexes. `selectContexts` is `run_select` up to the grouping step: access path, joins, and
the WHERE conjuncts at the stages `assign_filter_stages` gives them. Plan texts are left out.
-/

namespace LeafDb

/-! ### Dictionaries keyed by values -/

/-- A Python `dict` from values to lists; keys are compared with `==`. -/
abbrev Buckets (α : Type) := List (Value × List α)

namespace Buckets

variable {α : Type}

/-- `d.get(k, [])`. -/
def get (d : Buckets α) (k : Value) : List α :=
  match d.find? (·.1.pyEq k) with
  | some e => e.2
  | none => []

/-- `d.setdefault(k, []).append(a)`. -/
def add (d : Buckets α) (k : Value) (a : α) : Buckets α :=
  match d with
  | [] => [(k, [a])]
  | e :: d => if e.1.pyEq k then (e.1, e.2 ++ [a]) :: d else e :: add d k a

end Buckets

/-! ### What a statement reads -/

/-- The index of a column agrees with the rows: a bucket is the set of the rowids of the rows whose value
equals its key. -/
structure IndexAgrees (m : TableMeta) (rows : List (Int × Row)) (col : String) (idx : Buckets Int) : Prop where
  mem_iff : ∀ j, m.colnames.idxOf? col = some j → ∀ v rid, rid ∈ idx.get v ↔
    ∃ row x, (rid, row) ∈ rows ∧ row[j]? = some x ∧ x ≠ .none ∧ x.pyEq v = true
  nodup : ∀ v, (idx.get v).Nodup

/-- What a statement reads of a table: catalog entry, rows in rowid order, `self.indexes[(name, col)]`. -/
structure TableData where
  tmeta : TableMeta
  rows : List (Int × Row)
  index : String → Option (Buckets Int)

/-- A table in a state the engine can reach. -/
structure Table extends TableData where
  colnames_nodup : tmeta.colnames.Nodup
  ascending : rows.Pairwise fun a b => a.1 < b.1
  width : ∀ r ∈ rows, r.2.length = tmeta.columns.length
  /-- The primary key is the rowid. -/
  pk_eq : ∀ i, tmeta.pkIndex = some i → ∀ r ∈ rows, r.2[i]? = some (.int r.1)
  index_agrees : ∀ col, (tmeta.indexes.lookup col).isSome → ∃ idx, index col = some idx ∧ IndexAgrees tmeta rows col idx

instance : Coe Table TableData := ⟨Table.toTableData⟩

namespace TableData

/-- `btree.search` and `decode_row`. -/
def search (t : TableData) (rid : Int) : Option Row := (t.rows.find? (·.1 = rid)).map Prod.snd

/-- `Database.index_lookup`. -/
def indexLookup (t : TableData) (col : String) (v : Value) : List (Int × Row) :=
  match t.index col with
  | none => []
  | some idx => ((idx.get v).insertionSort (· ≤ ·)).filterMap fun rid => (t.search rid).map (rid, ·)

end TableData

/-- The tables of a session. -/
abbrev Tables := List Table

/-- `catalog.get`. -/
def Tables.get (db : Tables) (name : String) : Except PyError Table :=
  match db.find? (·.tmeta.name = name.toLower) with
  | some t => .ok t
  | none => .error .catalogError

/-- `coerce_pk`. -/
def coercePk : Value → Except PyError Int
  | .int i => .ok i
  | .float (.fin n m) =>
    if Value.isIntegral (.fin n m) then Value.truncFloat (.fin n m) else .error .sqlError
  | _ => .error .sqlError

/-! ### Access paths -/

/-- `find_equi_predicates`: the conjuncts that compare a column with a literal. -/
def findEquiPredicates (conjuncts : List Expr) : List ((String × Option String) × Value) :=
  conjuncts.filterMap fun
    | .binop .eq (.column name table) (.literal v) => some ((name, table), v)
    | .binop .eq (.literal v) (.column name table) => some ((name, table), v)
    | _ => none

/-- `_column_matches`. -/
def columnMatches (col : String × Option String) (label : String) (colnames : List String) : Bool :=
  match col.2 with
  | some t => decide (t = label ∧ col.1 ∈ colnames)
  | none => decide (col.1 ∈ colnames)

inductive Access
  | seq
  | pk (value : Value)
  | index (col : String) (value : Value)
deriving DecidableEq

/-- The base access path `build_select_plan` chooses: an equality on the primary key if there is one,
else the first one on an indexed column. -/
def chooseAccess (m : TableMeta) (label : String) (eqs : List ((String × Option String) × Value)) : Access :=
  let onBase := eqs.filter fun e => columnMatches e.1 label m.colnames
  match onBase.find? fun e => decide (some e.1.1 = m.pkColumn) with
  | some e => .pk e.2
  | none =>
    match onBase.find? fun e => (m.indexes.lookup e.1.1).isSome with
    | some e => .index e.1.1 e.2
    | none => .seq

/-- `scan["est_rows"]`. -/
def Access.estRows (m : TableMeta) : Access → Nat
  | seq => max m.rowCount 1
  | pk _ => 1
  | index _ _ => max 1 (m.rowCount / 100)

/-- `Executor._scan`. -/
def Access.scan (t : Table) : Access → List (Int × Row)
  | seq => t.rows
  | pk v =>
    if v = .none then []
    else
      match coercePk v with
      | .error _ => []
      | .ok key =>
        match t.search key with
        | none => []
        | some row => [(key, row)]
  | index col v => t.indexLookup col v

/-! ### Joins -/

inductive JoinType
  | inner | left | right | full
deriving DecidableEq, Repr

structure JoinClause where
  jtype : JoinType
  table : String
  alias? : Option String
  on : Expr

/-- The clauses of a SELECT that produce its rows. -/
structure SelectCore where
  table : String
  alias? : Option String
  joins : List JoinClause
  where? : Option Expr

namespace SelectCore

def baseAlias (sel : SelectCore) : String := sel.alias?.getD sel.table

def conjuncts (sel : SelectCore) : List Expr :=
  match sel.where? with
  | some w => flattenAnd w
  | none => []

end SelectCore

def JoinClause.label (j : JoinClause) : String := j.alias?.getD j.table

/-- A `dict` from aliases to tables; assigning an existing key keeps its place. -/
def setAlias (known : List (String × TableMeta)) (label : String) (m : TableMeta) : List (String × TableMeta) :=
  if label ∈ known.map Prod.fst then known.map fun e => if e.1 = label then (label, m) else e
  else known ++ [(label, m)]

/-- `owner` in `find_join_equi`. -/
def owner (known : List (String × TableMeta)) (rlabel : String) (rmeta : TableMeta) (name : String) :
    Option String → Option String
  | some t =>
    if t = rlabel then if name ∈ rmeta.colnames then some rlabel else none
    else
      match known.lookup t with
      | some m => if name ∈ m.colnames then some t else none
      | none => none
  | none =>
    match (known ++ [(rlabel, rmeta)]).filter fun e => decide (name ∈ e.2.colnames) with
    | [hit] => some hit.1
    | _ => none

/-- The column of the joined sources and the column of the new table that a hash join compares. -/
structure EquiKey where
  acc : String × String
  new : String

/-- `find_join_equi`. -/
def findJoinEqui (known : List (String × TableMeta)) (rlabel : String) (rmeta : TableMeta) :
    List Expr → Option EquiKey
  | [] => none
  | .binop .eq (.column ln lt) (.column rn rt) :: rest =>
    match owner known rlabel rmeta ln lt, owner known rlabel rmeta rn rt with
    | some lo, some ro =>
      if lo = ro then findJoinEqui known rlabel rmeta rest
      else if ro = rlabel then some ⟨(lo, ln), rn⟩
      else if lo = rlabel then some ⟨(ro, rn), ln⟩
      else findJoinEqui known rlabel rmeta rest
    | _, _ => findJoinEqui known rlabel rmeta rest
  | _ :: rest => findJoinEqui known rlabel rmeta rest

/-- How `_join` finds the pairs it matches. -/
inductive JoinAlgo
  | nested
  | hashRight (equi : EquiKey)
  | hashLeft (equi : EquiKey)

structure JoinPlan where
  jtype : JoinType
  table : Table
  label : String
  on : Expr
  algo : JoinAlgo

section Join

variable (lib : PyLib)

/-- The elements on which `test` is `True`. -/
def keepTrue {α : Type} (test : α → Except PyError Value) : List α → Except PyError (List α)
  | [] => .ok []
  | a :: as => do
    let v ← test a
    let rest ← keepTrue test as
    return if v = .bool true then a :: rest else rest

/-- `for k, a in pairs: if k is not None: table.setdefault(k, []).append(a)`. -/
def buildBuckets {α : Type} (pairs : List (Value × α)) : Buckets α :=
  pairs.foldl (fun d p => if p.1 = .none then d else d.add p.1 p.2) []

/-- The entries of a hash table for a key; `None` matches nothing. -/
def probe {α : Type} (d : Buckets α) (k : Value) : List α := if k = .none then [] else d.get k

abbrev Candidate := (Nat × Parts) × (Int × Row)

/-- The pairs `_join` evaluates ON for, in order. -/
def candidates (algo : JoinAlgo) (scope : Scope) (m : TableMeta) (left : List (Nat × Parts))
    (right : List (Int × Row)) : Except PyError (List Candidate) :=
  match algo with
  | .nested => .ok (left.flatMap fun l => right.map fun r => (l, r))
  | .hashRight equi => do
    let acc ← compileExpr lib scope [] false (.column equi.acc.2 equi.acc.1)
    let nidx ← m.columnIndex equi.new
    let keyed ← right.mapM fun r =>
      match r.2[nidx]? with
      | some v => .ok (v, r)
      | none => .error .indexError
    let table := buildBuckets keyed
    let hits ← left.mapM fun l => do return (probe table (← acc l.2 none)).map fun r => (l, r)
    return hits.flatten
  | .hashLeft equi => do
    let acc ← compileExpr lib scope [] false (.column equi.acc.2 equi.acc.1)
    let nidx ← m.columnIndex equi.new
    let keyed ← left.mapM fun l => do return (← acc l.2 none, l)
    let table := buildBuckets keyed
    let hits ← right.mapM fun r =>
      match r.2[nidx]? with
      | some v => .ok ((probe table v).map fun l => (l, r))
      | none => .error .indexError
    return hits.flatten

/-- `Executor._join`. -/
def join (left : List Parts) (j : JoinPlan) (scope : Scope) : Except PyError (List Parts) := do
  let onFn ← compileExpr lib scope [] false j.on
  let leftWidth := scope.sources.length - 1
  let numbered := left.zipIdx.map fun p => (p.2, p.1)
  let cands ← candidates lib j.algo scope j.table.tmeta numbered j.table.rows
  let hits ← keepTrue (fun c : Candidate => onFn (c.1.2 ++ [some c.2.2]) none) cands
  let matchedLeft := hits.map fun c => c.1.1
  let matchedRight := hits.map fun c => c.2.1
  let out := hits.map fun c => c.1.2 ++ [some c.2.2]
  let padLeft :=
    if j.jtype = .left ∨ j.jtype = .full then
      (numbered.filter fun l => l.1 ∉ matchedLeft).map fun l => l.2 ++ [none]
    else []
  let padRight :=
    if j.jtype = .right ∨ j.jtype = .full then
      (j.table.rows.filter fun r => r.1 ∉ matchedRight).map fun r => List.replicate leftWidth none ++ [some r.2]
    else []
  return out ++ padLeft ++ padRight

end Join

/-! ### Stages of the WHERE conjuncts -/

mutual

/-- The columns `_conjunct_tables` gathers; it does not look into a LIKE pattern. -/
def gather : Expr → List (String × Option String)
  | .column name table => [(name, table)]
  | .binop _ l r => gather l ++ gather r
  | .unary _ e => gather e
  | .isNull e _ => gather e
  | .between e lo hi _ => gather e ++ gather lo ++ gather hi
  | .inList e items _ => gather e ++ gatherItems items
  | .like e _ _ => gather e
  | _ => []

def gatherItems : List Expr → List (String × Option String)
  | [] => []
  | e :: es => gather e ++ gatherItems es

end

/-- The alias one column belongs to, if it resolves unambiguously. -/
def columnAlias (sources : List (String × TableMeta)) : String × Option String → Option String
  | (name, some t) =>
    match sources.lookup t with
    | some m => if name ∈ m.colnames then some t else none
    | none => none
  | (name, none) =>
    match sources.filter fun e => decide (name ∈ e.2.colnames) with
    | [hit] => some hit.1
    | _ => none

/-- `_conjunct_tables`. -/
def conjunctTables (conj : Expr) (sources : List (String × TableMeta)) : Option (List String) :=
  if walkFuncNodes conj ≠ [] then none else (gather conj).mapM (columnAlias sources)

/-- `avail` of `assign_filter_stages`: the sources after 0, 1, … joins. -/
def availSources (base : String × TableMeta) (joins : List (String × TableMeta)) : List (List (String × TableMeta)) :=
  joins.scanl (fun known j => setAlias known j.1 j.2) [base]

/-- The stage of one conjunct in `assign_filter_stages`. -/
def filterStage (avail : List (List (String × TableMeta))) (conj : Expr) : Nat :=
  let total := avail.length - 1
  match avail.getLast? with
  | none => total
  | some full =>
    if walkFuncNodes conj = [] ∧ (conjunctTables conj full).isSome then
      (avail.findIdx? fun srcs =>
        match conjunctTables conj srcs with
        | some refs => refs.all fun a => decide (a ∈ srcs.map Prod.fst)
        | none => false).getD total
    else total

/-! ### The plan and its run -/

structure Plan where
  base : Table
  label : String
  access : Access
  joins : List JoinPlan
  filters : List (Nat × Expr)

/-- The joins of `build_select_plan`: `known` and `leftEst` are what the loop carries along. -/
def planJoins (db : Tables) : List (String × TableMeta) → Nat → List JoinClause → Except PyError (List JoinPlan)
  | _, _, [] => .ok []
  | known, leftEst, j :: rest => do
    let t ← db.get j.table
    let rightEst := max t.tmeta.rowCount 1
    let equi := findJoinEqui known j.label t.tmeta (flattenAnd j.on)
    let algo :=
      match equi with
      | none => .nested
      | some equi => if rightEst ≤ leftEst then .hashRight equi else .hashLeft equi
    let estOut :=
      match equi with
      | none => max 1 (leftEst * rightEst / 10)
      | some _ => max leftEst rightEst
    let plans ← planJoins db (setAlias known j.label t.tmeta) estOut rest
    return ⟨j.jtype, t, j.label, j.on, algo⟩ :: plans

/-- `build_select_plan`. -/
def buildSelectPlan (db : Tables) (sel : SelectCore) : Except PyError Plan := do
  let base ← db.get sel.table
  let access := chooseAccess base.tmeta sel.baseAlias (findEquiPredicates sel.conjuncts)
  let joins ← planJoins db [(sel.baseAlias, base.tmeta)] (access.estRows base.tmeta) sel.joins
  let avail := availSources (sel.baseAlias, base.tmeta) (joins.map fun j => (j.label, j.table.tmeta))
  let staged := (List.range (joins.length + 1)).flatMap fun s =>
    (sel.conjuncts.filter fun c => filterStage avail c = s).map (s, ·)
  return ⟨base, sel.baseAlias, access, joins, staged⟩

section Run

variable (lib : PyLib)

/-- `apply_stage` on the conjuncts of the stage. -/
def applyStage (scope : Scope) : List Expr → List Parts → Except PyError (List Parts)
  | [], contexts => .ok contexts
  | conj :: rest, contexts => do
    let fn ← compileExpr lib scope [] false conj
    let kept ← keepTrue (fun parts => fn parts none) contexts
    applyStage scope rest kept

/-- The conjuncts a plan applies at a stage. -/
def Plan.stage (p : Plan) (s : Nat) : List Expr := (p.filters.filter fun f => f.1 = s).map Prod.snd

/-- The loop over the joins: `s` joins have been made. -/
def runJoins (p : Plan) : Nat → Scope → List JoinPlan → List Parts → Except PyError (Scope × List Parts)
  | _, scope, [], contexts => .ok (scope, contexts)
  | s, scope, j :: rest, contexts => do
    let scope ← scope.add j.label j.table.tmeta
    let joined ← join lib contexts j scope
    let kept ← applyStage lib scope (p.stage (s + 1)) joined
    runJoins p (s + 1) scope rest kept

/-- `run_select` up to the grouping step: the scope and the row contexts. -/
def runPlan (p : Plan) : Except PyError (Scope × List Parts) := do
  let scope ← Scope.empty.add p.label p.base.tmeta
  let contexts := (p.access.scan p.base).map fun r => [some r.2]
  let kept ← applyStage lib scope (p.stage 0) contexts
  runJoins lib p 0 scope p.joins kept

/-- The row contexts of a SELECT. -/
def selectContexts (db : Tables) (sel : SelectCore) : Except PyError (Scope × List Parts) := do
  runPlan lib (← buildSelectPlan db sel)

end Run

end LeafDb
