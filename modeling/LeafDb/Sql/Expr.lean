import LeafDb.Sql.Value

/-!
# Expressions (`sqlparse.py`) and their compilation (`compile_expr`)

A compiled expression is a function of the row context, one row or `None` per source, and of the values
of the aggregates. `PyLib` stands for the two library functions that no result here depends on: the text
of a float and the case folding of `re.IGNORECASE`.
-/

namespace LeafDb

inductive BinaryOp
  | and | or | eq | ne | lt | le | gt | ge | add | sub | mul | div
deriving DecidableEq, Repr

inductive UnOp
  | not | neg
deriving DecidableEq, Repr

/-- An expression. `id` of an aggregate call is the identity of its node. -/
inductive Expr
  | literal (value : Value)
  | column (name : String) (table : Option String)
  | func (id : Nat) (name : String) (arg : Option Expr) (star distinct : Bool)
  | isNull (operand : Expr) (negated : Bool)
  | between (operand lo hi : Expr) (negated : Bool)
  | inList (operand : Expr) (items : List Expr) (negated : Bool)
  | like (operand pattern : Expr) (negated : Bool)
  | unary (op : UnOp) (operand : Expr)
  | binop (op : BinaryOp) (left right : Expr)

/-- `walk_func_nodes`: it looks below operators and IS NULL only. -/
def walkFuncNodes : Expr → List Nat
  | .binop _ l r => walkFuncNodes l ++ walkFuncNodes r
  | .unary _ e => walkFuncNodes e
  | .isNull e _ => walkFuncNodes e
  | .func id _ _ _ _ => [id]
  | _ => []

/-- `flatten_and`. -/
def flattenAnd : Expr → List Expr
  | .binop .and l r => flattenAnd l ++ flattenAnd r
  | e => [e]

/-! ### Schemas and scopes -/

inductive ColType
  | int | float | text
deriving DecidableEq, Repr

structure ColumnDef where
  name : String
  type : ColType
  pk : Bool
deriving DecidableEq, Repr

/-- `TableMeta`. `indexes` maps a column to the name of its index. -/
structure TableMeta where
  name : String
  columns : List ColumnDef
  rootPage : Nat
  rowCount : Nat
  nextRowid : Int
  indexes : List (String × String)
deriving DecidableEq, Repr

namespace TableMeta

def colnames (m : TableMeta) : List String := m.columns.map ColumnDef.name

def types (m : TableMeta) : List ColType := m.columns.map ColumnDef.type

def pkColumn (m : TableMeta) : Option String := (m.columns.find? ColumnDef.pk).map ColumnDef.name

def pkIndex (m : TableMeta) : Option Nat := m.columns.findIdx? ColumnDef.pk

/-- `column_index`. -/
def columnIndex (m : TableMeta) (name : String) : Except PyError Nat :=
  match m.colnames.idxOf? name with
  | some i => .ok i
  | none => .error .catalogError

end TableMeta

abbrev Row := List Value

/-- One row, or `None`, for each source joined so far. -/
abbrev Parts := List (Option Row)

/-- `Scope`: the sources in slot order, and the labels of aggregates in the select list. -/
structure Scope where
  sources : List (String × TableMeta)
  aggAliases : List (String × Nat)

namespace Scope

def empty : Scope := ⟨[], []⟩

/-- `Scope.add`. -/
def add (s : Scope) (label : String) (m : TableMeta) : Except PyError Scope :=
  if label ∈ s.sources.map Prod.fst then .error .executionError
  else .ok { s with sources := s.sources ++ [(label, m)] }

/-- The slots at which an unqualified name is a column. -/
def hits (name : String) : Nat → List (String × TableMeta) → List (Nat × Nat)
  | _, [] => []
  | i, (_, m) :: rest =>
    match m.colnames.idxOf? name with
    | some j => (i, j) :: hits name (i + 1) rest
    | none => hits name (i + 1) rest

/-- `Scope.resolve`. -/
def resolve (s : Scope) (name : String) (table : Option String) : Except PyError (Nat × Nat) :=
  match table with
  | some t =>
    match s.sources.findIdx? (·.1 = t) with
    | none => .error .executionError
    | some i =>
      match s.sources[i]?.bind (·.2.colnames.idxOf? name) with
      | some j => .ok (i, j)
      | none => .error .executionError
  | none =>
    match hits name 0 s.sources with
    | [hit] => .ok hit
    | _ => .error .executionError

end Scope

/-! ### Compilation -/

structure PyLib where
  /-- `str(f)`. -/
  strFloat : PyFloat → String
  /-- Two characters that `re.IGNORECASE` identifies. -/
  sameLetter : Char → Char → Bool

abbrev AggEnv := Option (Nat → Option Value)

/-- What `compile_expr` returns. -/
abbrev Closure := Parts → AggEnv → Except PyError Value

section Compile

variable (lib : PyLib)

/-- `like_regex(p).match(v)`; `$` also matches before a final line break. -/
def likeChars : List Char → List Char → Bool
  | [], [] => true
  | [], c :: cs => decide (c = '\n' ∧ cs = [])
  | '%' :: p, cs => cs.tails.any (likeChars p)
  | _ :: _, [] => false
  | q :: p, c :: cs => (decide (q = '_') || lib.sameLetter q c) && likeChars p cs

def likeMatch (pattern text : String) : Bool := likeChars lib pattern.toList text.toList

/-- The left operand of LIKE as text. -/
def likeText : Value → String
  | .bool b => if b then "1" else "0"
  | .int i => toString i
  | .float f => lib.strFloat f
  | .str s => s
  | .none => ""

def negateIf (negated r : Bool) : Value := .bool (if negated then !r else r)

/-- `is_null_fn`. -/
def isNullFn (inner : Closure) (negated : Bool) : Closure := fun parts env => do
  let v ← inner parts env
  return .bool (if negated then decide (v ≠ .none) else decide (v = .none))

/-- `between_fn`. -/
def betweenFn (inner loFn hiFn : Closure) (negated : Bool) : Closure := fun parts env => do
  let v ← inner parts env
  if v = .none then return .none
  let lo ← loFn parts env
  let hi ← hiFn parts env
  if lo = .none ∨ hi = .none then return .none
  let _ ← Value.orderCmp v lo
  let _ ← Value.orderCmp v hi
  return negateIf negated (lo.pyLe v && v.pyLe hi)

/-- The loop of `in_fn` over the items; `sawNull` says whether one was `None`. -/
def inItems (v : Value) (negated : Bool) (parts : Parts) (env : AggEnv) : Bool → List Closure → Except PyError Value
  | sawNull, [] => .ok (if sawNull then .none else negateIf negated false)
  | sawNull, fn :: fns => do
    let cand ← fn parts env
    if cand = .none then inItems v negated parts env true fns
    else if v.eq cand then return negateIf negated true
    else inItems v negated parts env sawNull fns

/-- `in_fn`. -/
def inFn (inner : Closure) (items : List Closure) (negated : Bool) : Closure := fun parts env => do
  let v ← inner parts env
  if v = .none then return .none
  inItems v negated parts env false items

/-- `like_fn`. -/
def likeFn (inner patFn : Closure) (negated : Bool) : Closure := fun parts env => do
  let v ← inner parts env
  let p ← patFn parts env
  if v = .none ∨ p = .none then return .none
  match p with
  | .str pat => return negateIf negated (likeMatch lib pat (likeText lib v))
  | _ => .error .executionError

/-- `not_fn`. -/
def notFn (inner : Closure) : Closure := fun parts env => do
  let v ← inner parts env
  return if v = .none then .none else .bool (!v.truthy)

/-- `neg_fn`. -/
def negFn (inner : Closure) : Closure := fun parts env => do
  let v ← inner parts env
  if v = .none then return .none
  if v.isNumber then return v.negate
  .error .executionError

/-- `and_fn`: the right operand is not evaluated when the left one is false. -/
def andFn (lfn rfn : Closure) : Closure := fun parts env => do
  let l ← lfn parts env
  if l ≠ .none ∧ l.truthy = false then return .bool false
  let r ← rfn parts env
  if r ≠ .none ∧ r.truthy = false then return .bool false
  return if l = .none ∨ r = .none then .none else .bool true

/-- `or_fn`. -/
def orFn (lfn rfn : Closure) : Closure := fun parts env => do
  let l ← lfn parts env
  if l ≠ .none ∧ l.truthy = true then return .bool true
  let r ← rfn parts env
  if r ≠ .none ∧ r.truthy = true then return .bool true
  return if l = .none ∨ r = .none then .none else .bool false

/-- The closures of the other binary operators: `None` if an operand is, else `op` of the operands. -/
def strictFn (op : Value → Value → Except PyError Value) (lfn rfn : Closure) : Closure := fun parts env => do
  let l ← lfn parts env
  let r ← rfn parts env
  if l = .none ∨ r = .none then return .none
  op l r

/-- `cmp_fn`. -/
def compareOp (test : Int → Bool) (l r : Value) : Except PyError Value := do
  return .bool (test (← l.orderCmp r))

/-- `arith_fn` on operands that are not `None`. -/
def numericOp (op : Value → Value → Except PyError Value) (l r : Value) : Except PyError Value :=
  if l.isNumber ∧ r.isNumber then op l r else .error .executionError

def binopFn : BinaryOp → Closure → Closure → Closure
  | .and => andFn
  | .or => orFn
  | .eq => strictFn fun l r => .ok (.bool (l.eq r))
  | .ne => strictFn fun l r => .ok (.bool (!l.eq r))
  | .lt => strictFn (compareOp (· < 0))
  | .le => strictFn (compareOp (· ≤ 0))
  | .gt => strictFn (compareOp (0 < ·))
  | .ge => strictFn (compareOp (0 ≤ ·))
  | .add => strictFn (numericOp (Value.arith (· + ·) PyFloat.add))
  | .sub => strictFn (numericOp (Value.arith (· - ·) PyFloat.sub))
  | .mul => strictFn (numericOp (Value.arith (· * ·) PyFloat.mul))
  | .div => strictFn (numericOp Value.divide)

/-- `read_col`. -/
def readCol (i j : Nat) : Closure := fun parts _ =>
  match parts[i]? with
  | none => .error .indexError
  | some none => .ok .none
  | some (some row) =>
    match row[j]? with
    | some v => .ok v
    | none => .error .indexError

/-- `read_agg`, `read_alias`. -/
def readAgg (id : Nat) : Closure := fun _ env =>
  match env.bind (· id) with
  | some v => .ok v
  | none => .error .executionError

variable (scope : Scope) (aggAliases : List (String × Nat)) (allowAgg : Bool)

/-- A column reference: resolved in the scope, or else the label of an aggregate. -/
def compileColumn (name : String) (table : Option String) : Except PyError Closure :=
  match scope.resolve name table with
  | .ok (i, j) => .ok (readCol i j)
  | .error e =>
    match allowAgg, table, aggAliases.lookup name.toLower with
    | true, none, some id => .ok (readAgg id)
    | _, _, _ => .error e

mutual

/-- `compile_expr`. -/
def compileExpr : Expr → Except PyError Closure
  | .literal v => .ok fun _ _ => .ok v
  | .column name table => compileColumn scope aggAliases allowAgg name table
  | .func id _ _ _ _ => .ok (readAgg id)
  | .isNull e negated => do return isNullFn (← compileExpr e) negated
  | .between e lo hi negated => do
    return betweenFn (← compileExpr e) (← compileExpr lo) (← compileExpr hi) negated
  | .inList e items negated => do return inFn (← compileExpr e) (← compileExprs items) negated
  | .like e pat negated => do return likeFn lib (← compileExpr e) (← compileExpr pat) negated
  | .unary .not e => do return notFn (← compileExpr e)
  | .unary .neg e => do return negFn (← compileExpr e)
  | .binop op l r => do return binopFn op (← compileExpr l) (← compileExpr r)

def compileExprs : List Expr → Except PyError (List Closure)
  | [] => .ok []
  | e :: es => do return (← compileExpr e) :: (← compileExprs es)

end

end Compile

end LeafDb
