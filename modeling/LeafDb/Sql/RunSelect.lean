import LeafDb.Sql.Where

/-!
# Grouping, projection and sorting of a SELECT (`executor.py`)

`runSelect` is `run_select`: the row contexts of `Sql.Select`, their groups, the select list on each unit,
then DISTINCT, ORDER BY, LIMIT and OFFSET. In sets and dictionaries a NaN equals nothing.
-/

namespace LeafDb

/-! ### Aggregates -/

/-- A node that `walk_func_nodes` collects. `id` is its identity. -/
structure AggCall where
  id : Nat
  name : String
  arg : Option Expr
  star : Bool
  distinct : Bool

/-- `walk_func_nodes`, with the nodes themselves. -/
def funcNodes : Expr → List AggCall
  | .binop _ l r => funcNodes l ++ funcNodes r
  | .unary _ e => funcNodes e
  | .isNull e _ => funcNodes e
  | .func id name arg star distinct => [⟨id, name, arg, star, distinct⟩]
  | _ => []

theorem funcNodes_ids (e : Expr) : (funcNodes e).map AggCall.id = walkFuncNodes e := by
  induction e using funcNodes.induct with
  | case1 _ l r ihl ihr => rw [funcNodes, walkFuncNodes, List.map_append, ihl, ihr]
  | case2 _ e ih => rw [funcNodes, walkFuncNodes, ih]
  | case3 e _ ih => rw [funcNodes, walkFuncNodes, ih]
  | case4 => rfl
  | case5 e h₁ h₂ h₃ h₄ => rw [funcNodes.eq_5 e h₁ h₂ h₃ h₄, walkFuncNodes.eq_5 e h₁ h₂ h₃ h₄, List.map_nil]

theorem funcNodes_eq_nil {e : Expr} : funcNodes e = [] ↔ walkFuncNodes e = [] := by
  rw [← funcNodes_ids, List.map_eq_nil_iff]

/-- `l / n` for an `int` or a `float` and a length that is not zero. -/
def trueDiv (l : Value) (n : Nat) : Except PyError Value :=
  match l with
  | .int i => do return .float (← Value.intTrueDiv i n)
  | l => do return .float ((← l.toFloat).div (← Value.intToFloat n))

/-- The loops of SUM and AVG: `total + v` for each value. -/
def addValues : Value → List Value → Except PyError Value
  | total, [] => .ok total
  | total, v :: vs => do addValues (← numericOp (Value.arith (· + ·) PyFloat.add) total v) vs

/-- The loop of MIN and MAX; under another name `best` stays. -/
def bestValue (name : String) : Value → List Value → Except PyError Value
  | best, [] => .ok best
  | best, v :: vs => do
    let c ← best.orderCmp v
    bestValue name (if (name = "MIN" ∧ 0 < c) ∨ (name = "MAX" ∧ c < 0) then v else best) vs

/-- `_accumulate`. -/
def accumulate (name : String) (values : List Value) : Except PyError Value :=
  if name = "COUNT" then .ok (.int values.length)
  else
    match values with
    | [] => .ok .none
    | v :: vs =>
      if name = "SUM" then addValues v vs
      else if name = "AVG" then do trueDiv (← addValues (.int 0) (v :: vs)) (v :: vs).length
      else bestValue name v vs

/-- `list(dict.fromkeys(values))`. -/
def fromKeys (values : List Value) : List Value :=
  values.foldl (fun kept v => if kept.any (·.pyEq v) then kept else kept ++ [v]) []

/-- An entry of `compiled_aggs`; `fn` is `None` for a star. -/
structure CompiledAgg where
  id : Nat
  name : String
  fn : Option Closure
  distinct : Bool

/-- The value `_aggregate` gives one aggregate of a group. -/
def CompiledAgg.value (c : CompiledAgg) (members : List Parts) : Except PyError Value :=
  match c.fn with
  | none => .ok (.int members.length)
  | some fn => do
    let values := (← members.mapM fun parts => fn parts none).filter fun v => decide (v ≠ .none)
    accumulate c.name (if c.distinct then fromKeys values else values)

/-! ### Groups -/

/-- A component of a group key, `_group_key_value`. -/
inductive GroupKeyValue
  | text (s : String)
  | null
  | number (v : Value)

def groupKeyValue : Value → GroupKeyValue
  | .str s => .text s
  | .none => .null
  | v => .number v

namespace GroupKeyValue

/-- `==` on the tuples. -/
def eq : GroupKeyValue → GroupKeyValue → Bool
  | text s, text s' => decide (s = s')
  | null, null => true
  | number v, number v' => v.pyEq v'
  | _, _ => false

end GroupKeyValue

abbrev GroupKey := List GroupKeyValue

def GroupKey.eq : GroupKey → GroupKey → Bool
  | [], [] => true
  | a :: k, b :: k' => a.eq b && GroupKey.eq k k'
  | _, _ => false

/-- The dictionary `groups`, in the order of `order`. -/
abbrev Groups := List (GroupKey × List Parts)

/-- `groups[key].append(parts)`, after `groups[key] = []` for a new key. -/
def Groups.add (key : GroupKey) (parts : Parts) : Groups → Groups
  | [] => [(key, [parts])]
  | g :: gs => if GroupKey.eq g.1 key then (g.1, g.2 ++ [parts]) :: gs else g :: Groups.add key parts gs

def groupKey (fns : List Closure) (parts : Parts) : Except PyError GroupKey :=
  fns.mapM fun fn => do return groupKeyValue (← fn parts none)

/-- The groups of `_aggregate`: one if there is no GROUP BY. -/
def groupContexts (fns : List Closure) (contexts : List Parts) : Except PyError Groups :=
  if fns.isEmpty then .ok [([], contexts)]
  else contexts.foldlM (fun gs parts => do return Groups.add (← groupKey fns parts) parts gs) []

/-! ### The statement -/

inductive SelectItem
  | star
  | expr (e : Expr) (label : String)

structure OrderItem where
  expr : Expr
  desc : Bool

structure SelectStmt extends SelectCore where
  distinct : Bool
  items : List SelectItem
  groupBy : List Expr
  having? : Option Expr
  orderBy : List OrderItem
  limit? : Option Nat
  offset? : Option Nat

/-- One row of the result before projection: a row context, or a group. -/
structure SelectUnit where
  parts : Parts
  /-- The members of a group; a row context of its own has no such entry. -/
  rowsCtx : Option (List Parts)
  aggEnv : AggEnv

def SelectItem.funcNodes : SelectItem → List AggCall
  | .star => []
  | .expr e _ => LeafDb.funcNodes e

namespace SelectStmt

variable (sel : SelectStmt)

/-- `walk_in_items`. -/
def walkInItems : Bool :=
  sel.items.any (fun i => !i.funcNodes.isEmpty) || (sel.having?.any fun e => !(funcNodes e).isEmpty) ||
    sel.orderBy.any fun o => !(funcNodes o.expr).isEmpty

def grouped : Bool := !sel.groupBy.isEmpty || sel.walkInItems

/-- `func_nodes` of `_aggregate`: each node once. -/
def aggCalls : List AggCall :=
  (sel.items.flatMap SelectItem.funcNodes ++ (sel.having?.elim [] funcNodes) ++
    sel.orderBy.flatMap fun o => funcNodes o.expr).pwFilter fun a b => a.id ≠ b.id

/-- `add_agg_alias` on the aggregate calls of the select list; the last one of a label stays. -/
def aggAliases : List (String × Nat) :=
  sel.items.foldl (fun known i =>
    match i with
    | .expr (.func id _ _ _ _) label => if label = "" then known else (label.toLower, id) :: known
    | _ => known) []

/-- `cols`. -/
def columnLabels (scope : Scope) : List String :=
  sel.items.flatMap fun
    | .star => scope.sources.flatMap fun s => s.2.colnames
    | .expr _ label => [label]

end SelectStmt

/-! ### The run -/

section Run

variable (lib : PyLib)

def compileAgg (scope : Scope) (f : AggCall) : Except PyError CompiledAgg :=
  if f.star then .ok ⟨f.id, f.name, none, f.distinct⟩
  else
    match f.arg with
    | none => .error .executionError
    | some arg => do return ⟨f.id, f.name, some (← compileExpr lib scope [] false arg), f.distinct⟩

/-- `agg_env` of a group. -/
def aggEnv (aggs : List CompiledAgg) (members : List Parts) : Except PyError AggEnv := do
  let values ← aggs.mapM fun c => do return (c.id, ← c.value members)
  return some fun id => values.lookup id

/-- `_aggregate`. -/
def aggregate (sel : SelectStmt) (scope : Scope) (contexts : List Parts) : Except PyError (List SelectUnit) := do
  let aggs ← sel.aggCalls.mapM (compileAgg lib scope)
  let keyFns ← sel.groupBy.mapM (compileExpr lib scope [] false)
  let havingFn ← sel.having?.mapM (compileExpr lib scope scope.aggAliases true)
  let groups ← groupContexts keyFns contexts
  let units ← groups.mapM fun g => do
    let env ← aggEnv aggs g.2
    let rep := g.2.head?.getD (List.replicate scope.sources.length none)
    match havingFn with
    | none => return some ⟨rep, g.2, env⟩
    | some fn => return if (← fn rep env) = .bool true then some ⟨rep, g.2, env⟩ else none
  return units.filterMap id

/-- `units` of `run_select`, and the scope with the labels of aggregates. -/
def selectUnits (sel : SelectStmt) (scope : Scope) (contexts : List Parts) :
    Except PyError (Scope × List SelectUnit) :=
  if sel.grouped then do
    let scope := { scope with aggAliases := sel.aggAliases ++ scope.aggAliases }
    return (scope, ← aggregate lib sel scope contexts)
  else if sel.having?.isSome then .error .executionError
  else .ok (scope, contexts.map fun parts => ⟨parts, none, none⟩)

/-- An element of `item_fns`; `None` stands for a star. -/
def itemFn (scope : Scope) : SelectItem → Except PyError (Option Closure)
  | .star => .ok none
  | .expr e _ => do return some (← compileExpr lib scope [] false e)

/-- `out_row` of one unit. -/
def outRow (scope : Scope) (u : SelectUnit) : List (Option Closure) → Except PyError Row
  | [] => .ok []
  | none :: fns => do return starRow scope u.parts ++ (← outRow scope u fns)
  | some fn :: fns => do return (← fn u.parts u.aggEnv) :: (← outRow scope u fns)

/-- An element of `order_specs`. -/
inductive OrderSpec
  | idx (pos : Nat)
  | fn (f : Closure)

def orderSpec (sel : SelectStmt) (scope : Scope) (o : OrderItem) : Except PyError OrderSpec :=
  let byFn : Except PyError OrderSpec := do
    return .fn (← compileExpr lib scope (if sel.grouped then scope.aggAliases else []) sel.grouped o.expr)
  match o.expr with
  | .literal (.int i) => if i - 1 < 0 then .error .executionError else .ok (.idx (i - 1).toNat)
  | .column name none =>
    match (sel.columnLabels scope).idxOf? name with
    | some i => .ok (.idx i)
    | none => byFn
  | _ => byFn

def OrderSpec.key (u : SelectUnit) (out : Row) : OrderSpec → Except PyError Value
  | .idx pos =>
    match out[pos]? with
    | some v => .ok v
    | none => .error .executionError
  | .fn f => f u.parts u.aggEnv

end Run

/-! ### DISTINCT, ORDER BY, LIMIT -/

/-- A row of the result and its sort keys. -/
structure Projected where
  row : Row
  keys : List Value

/-- `==` on tuples of values. -/
def rowEq : Row → Row → Bool
  | [], [] => true
  | v :: r, v' :: r' => v.pyEq v' && rowEq r r'
  | _, _ => false

/-- DISTINCT: the first of equal rows stays. -/
def uniqueRows (rows : List Projected) : List Projected :=
  rows.foldl (fun uniq p => if uniq.any (rowEq ·.row p.row) then uniq else uniq ++ [p]) []

/-- `sort_wrap(a) < sort_wrap(b)`: NULL, then texts, then numbers, then booleans. -/
def sortLt (a b : Value) : Bool :=
  let rank : Value → Nat
    | .none => 0
    | .str _ => 1
    | .bool _ => 3
    | _ => 2
  if rank a = rank b then a.pyLt b else decide (rank a < rank b)

/-- One of the sorts of `run_select`; `reverse=True` keeps the order of equal keys too. -/
def sortBy (pos : Nat) (desc : Bool) (rows : List Projected) : List Projected :=
  let key (p : Projected) : Value := p.keys.getD pos .none
  rows.mergeSort fun p q => if desc then !sortLt (key p) (key q) else !sortLt (key q) (key p)

/-- The sorts by the last key first. -/
def sortRows (orderBy : List OrderItem) (rows : List Projected) : List Projected :=
  (orderBy.zipIdx.reverse).foldl (fun rows o => sortBy o.2 o.1.desc rows) rows

/-- `projected[start:end]`. -/
def slice (sel : SelectStmt) (rows : List Projected) : List Projected :=
  let rest := rows.drop (sel.offset?.getD 0)
  match sel.limit? with
  | none => rest
  | some n => rest.take n

section Run

variable (lib : PyLib)

/-- A unit with its row and its sort keys. -/
def projectUnit (scope : Scope) (fns : List (Option Closure)) (specs : List OrderSpec) (u : SelectUnit) :
    Except PyError Projected := do
  let out ← outRow scope u fns
  return ⟨out, ← specs.mapM (OrderSpec.key u out)⟩

/-- `build_select_plan` and `run_select`: the column names and the rows. -/
def runSelect (db : Tables) (sel : SelectStmt) : Except PyError (List String × List Row) := do
  let (scope, contexts) ← selectContexts lib db sel.toSelectCore
  let (scope, units) ← selectUnits lib sel scope contexts
  let fns ← sel.items.mapM (itemFn lib scope)
  let specs ← sel.orderBy.mapM (orderSpec lib sel scope)
  let projected ← units.mapM (projectUnit scope fns specs)
  let rows := if sel.distinct then uniqueRows projected else projected
  return (sel.columnLabels scope, (slice sel (sortRows sel.orderBy rows)).map Projected.row)

end Run

end LeafDb
