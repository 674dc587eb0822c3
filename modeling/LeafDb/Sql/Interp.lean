import LeafDb.Base.Result
import LeafDb.Sql.Expr

/-!
# The interpreter (`eval_expr`)

`eval_expr` evaluates both operands of every operator before it looks at either; a compiled closure stops
as soon as the result is known. So the closure can only return where the interpreter raises, and never
another value (`compileExpr_of_evalExpr`).
-/

namespace LeafDb

section Eval

/-- `None if v is None else bool(v)`. -/
def truth (v : Value) : Option Bool := if v = .none then none else some v.truthy

/-- `_kleene("AND", l, r)`. -/
def kleeneAnd (l r : Value) : Value :=
  if truth l = some false ∨ truth r = some false then .bool false
  else if truth l = none ∨ truth r = none then .none
  else .bool true

/-- `_kleene("OR", l, r)`. -/
def kleeneOr (l r : Value) : Value :=
  if truth l = some true ∨ truth r = some true then .bool true
  else if truth l = none ∨ truth r = none then .none
  else .bool false

/-- The operators of `eval_expr` other than AND and OR, on operands that are not `None`. -/
def evalOp : BinaryOp → Value → Value → Except PyError Value
  | .eq, l, r => .ok (.bool (l.eq r))
  | .ne, l, r => .ok (.bool (!l.eq r))
  | .lt, l, r => do return .bool (decide ((← l.orderCmp r) < 0))
  | .le, l, r => do return .bool (decide ((← l.orderCmp r) ≤ 0))
  | .gt, l, r => do return .bool (decide (0 < (← l.orderCmp r)))
  | .ge, l, r => do return .bool (decide (0 ≤ (← l.orderCmp r)))
  | op, l, r =>
    if l.isNumber = false then .error .executionError
    else if r.isNumber = false then .error .executionError
    else
      match op with
      | .add => Value.arith (· + ·) PyFloat.add l r
      | .sub => Value.arith (· - ·) PyFloat.sub l r
      | .mul => Value.arith (· * ·) PyFloat.mul l r
      | _ => Value.divide l r

variable (lib : PyLib) (scope : Scope) (ctx : Parts) (env : AggEnv)

/-- A column, or else the label of an aggregate when there is an environment. -/
def evalColumn (name : String) (table : Option String) : Except PyError Value :=
  match scope.resolve name table with
  | .ok (i, j) =>
    match ctx[i]? with
    | none => .error .indexError
    | some none => .ok .none
    | some (some row) =>
      match row[j]? with
      | some v => .ok v
      | none => .error .indexError
  | .error e =>
    match env, table, scope.aggAliases.lookup name.toLower with
    | some env, none, some id =>
      match env id with
      | some v => .ok v
      | none => .error .keyError
    | _, _, _ => .error e

mutual

/-- `eval_expr`. -/
def evalExpr : Expr → Except PyError Value
  | .literal v => .ok v
  | .column name table => evalColumn scope ctx env name table
  | .func id _ _ _ _ =>
    match env.bind (· id) with
    | some v => .ok v
    | none => .error .executionError
  | .isNull e negated => do
    let v ← evalExpr e
    return .bool (if negated then decide (v ≠ .none) else decide (v = .none))
  | .between e lo hi negated => do
    let v ← evalExpr e
    let lo ← evalExpr lo
    let hi ← evalExpr hi
    if v = .none ∨ lo = .none ∨ hi = .none then return .none
    let _ ← Value.orderCmp v lo
    let _ ← Value.orderCmp v hi
    return negateIf negated (lo.pyLe v && v.pyLe hi)
  | .inList e items negated => do
    let v ← evalExpr e
    if v = .none then return .none
    match ← evalItems v false items with
    | some result => return negateIf negated result
    | none => return .none
  | .like e pat negated => do
    let v ← evalExpr e
    let p ← evalExpr pat
    if v = .none ∨ p = .none then return .none
    match p with
    | .str pat => return negateIf negated (likeMatch lib pat (likeText lib v))
    | _ => .error .executionError
  | .unary .not e => do
    let v ← evalExpr e
    return if v = .none then .none else .bool (!v.truthy)
  | .unary .neg e => do
    let v ← evalExpr e
    if v = .none then return .none
    if v.isNumber then return v.negate
    .error .executionError
  | .binop op l r => do
    let l ← evalExpr l
    let r ← evalExpr r
    match op with
    | .and => return kleeneAnd l r
    | .or => return kleeneOr l r
    | op => if l = .none ∨ r = .none then return .none else evalOp op l r

/-- The loop over the items of IN: whether `v` is found, `none` when it is not and an item was `None`. -/
def evalItems (v : Value) : Bool → List Expr → Except PyError (Option Bool)
  | sawNull, [] => .ok (if sawNull then none else some false)
  | sawNull, e :: es => do
    let cand ← evalExpr e
    if cand = .none then evalItems v true es
    else if v.eq cand then return some true
    else evalItems v sawNull es

end

end Eval

/-! ### Closures return what the interpreter returns -/

section Agree

variable {lib : PyLib} {scope : Scope} {ctx : Parts} {env : AggEnv}

theorem compileColumn_of_evalColumn {name : String} {table : Option String} {f : Closure} {v : Value}
    (hf : compileColumn scope scope.aggAliases env.isSome name table = .ok f)
    (hv : evalColumn scope ctx env name table = .ok v) : f ctx env = .ok v := by
  unfold compileColumn at hf
  unfold evalColumn at hv
  split at hf
  · rename_i i j hr
    cases hf
    simp only [hr] at hv
    exact hv
  · rename_i e hr
    simp only [hr] at hv
    split at hv
    · rename_i env id _ hl
      simp only [Option.isSome_some, hl] at hf
      cases hf
      split at hv
      · rename_i w hw
        simpa [readAgg, hw] using hv
      · cases hv
    · cases hv

theorem truth_eq_none {v : Value} : truth v = none ↔ v = .none := by
  unfold truth
  split <;> simp_all

theorem truth_eq_some {v : Value} {b : Bool} : truth v = some b ↔ v ≠ .none ∧ v.truthy = b := by
  unfold truth
  split <;> simp_all

/-- AND, evaluated from left to right. -/
theorem andFn_of_ok {lfn rfn : Closure} {l r : Value} (hl : lfn ctx env = .ok l) (hr : rfn ctx env = .ok r) :
    andFn lfn rfn ctx env = .ok (kleeneAnd l r) := by
  simp only [andFn, hl, hr, bind, Except.bind, kleeneAnd, truth_eq_some, truth_eq_none]
  by_cases h1 : l ≠ .none ∧ l.truthy = false
  · simp [h1, pure, Except.pure]
  · by_cases h2 : r ≠ .none ∧ r.truthy = false
    · simp [h2, pure, Except.pure]
    · rw [if_neg h1, if_neg h2, if_neg (not_or.2 ⟨h1, h2⟩)]
      rfl

/-- OR, evaluated from left to right. -/
theorem orFn_of_ok {lfn rfn : Closure} {l r : Value} (hl : lfn ctx env = .ok l) (hr : rfn ctx env = .ok r) :
    orFn lfn rfn ctx env = .ok (kleeneOr l r) := by
  simp only [orFn, hl, hr, bind, Except.bind, kleeneOr, truth_eq_some, truth_eq_none]
  by_cases h1 : l ≠ .none ∧ l.truthy = true
  · simp [h1, pure, Except.pure]
  · by_cases h2 : r ≠ .none ∧ r.truthy = true
    · simp [h2, pure, Except.pure]
    · rw [if_neg h1, if_neg h2, if_neg (not_or.2 ⟨h1, h2⟩)]
      rfl

theorem strictFn_of_ok {op : Value → Value → Except PyError Value} {lfn rfn : Closure} {l r : Value}
    (hl : lfn ctx env = .ok l) (hr : rfn ctx env = .ok r) :
    strictFn op lfn rfn ctx env = if l = .none ∨ r = .none then .ok .none else op l r := by
  simp only [strictFn, hl, hr, bind, Except.bind]
  split <;> rfl

theorem numericOp_eq {op : Value → Value → Except PyError Value} {l r : Value} :
    numericOp op l r = if l.isNumber = false then .error .executionError
      else if r.isNumber = false then .error .executionError else op l r := by
  rw [numericOp]
  rcases l.isNumber <;> rcases r.isNumber <;> simp

/-- The closure of an operator on operands that return. -/
theorem binopFn_of_ok {op : BinaryOp} {lfn rfn : Closure} {l r v : Value} (hl : lfn ctx env = .ok l)
    (hr : rfn ctx env = .ok r) (hv : (match op with
      | .and => .ok (kleeneAnd l r)
      | .or => .ok (kleeneOr l r)
      | op => if l = .none ∨ r = .none then .ok .none else evalOp op l r) = Except.ok v) :
    binopFn op lfn rfn ctx env = .ok v := by
  rcases op <;> simp only [binopFn] <;> simp only at hv
  · exact (andFn_of_ok hl hr).trans hv
  · exact (orFn_of_ok hl hr).trans hv
  all_goals
    rw [strictFn_of_ok hl hr, ← hv]
    try rw [numericOp_eq]
    rfl

theorem inItems_of_evalItems {v : Value} {negated : Bool} {items : List Expr} {fns : List Closure} {sawNull : Bool}
    {result : Option Bool} (h : List.Forall₂ (fun e f => ∀ u, evalExpr lib scope ctx env e = .ok u → f ctx env = .ok u) items fns)
    (hv : evalItems lib scope ctx env v sawNull items = .ok result) :
    inItems v negated ctx env sawNull fns = .ok (result.elim .none (negateIf negated)) := by
  induction h generalizing sawNull with
  | nil =>
    cases hv
    rcases sawNull <;> rfl
  | @cons e f items fns hf _ ih =>
    rw [evalItems] at hv
    obtain ⟨cand, hc, hv⟩ := do_eq_ok.1 hv
    rw [inItems]
    simp only [bind, Except.bind, hf cand hc]
    split
    · rename_i hn
      rw [if_pos hn] at hv
      exact ih hv
    · rename_i hn
      rw [if_neg hn] at hv
      split
      · rename_i he
        rw [if_pos he] at hv
        cases hv
        rfl
      · rename_i he
        rw [if_neg he] at hv
        exact ih hv

mutual

/-- Where the interpreter returns a value, the compiled closure returns the same value. -/
theorem compileExpr_of_evalExpr : (e : Expr) → {f : Closure} → {v : Value} →
    compileExpr lib scope scope.aggAliases env.isSome e = .ok f → evalExpr lib scope ctx env e = .ok v → f ctx env = .ok v
  | .literal w, f, v, hf, hv => by
    cases hf
    exact hv
  | .column name table, f, v, hf, hv => compileColumn_of_evalColumn hf hv
  | .func id _ _ _ _, f, v, hf, hv => by
    cases hf
    rw [evalExpr] at hv
    exact hv
  | .isNull e negated, f, v, hf, hv => by
    obtain ⟨g, hg, hf⟩ := do_eq_ok.1 hf
    cases hf
    obtain ⟨u, hu, hv⟩ := do_eq_ok.1 hv
    exact do_eq_ok.2 ⟨u, compileExpr_of_evalExpr e hg hu, hv⟩
  | .between e lo hi negated, f, v, hf, hv => by
    obtain ⟨g, hg, hf⟩ := do_eq_ok.1 hf
    obtain ⟨glo, hglo, hf⟩ := do_eq_ok.1 hf
    obtain ⟨ghi, hghi, hf⟩ := do_eq_ok.1 hf
    cases hf
    obtain ⟨u, hu, hv⟩ := do_eq_ok.1 hv
    obtain ⟨ulo, hulo, hv⟩ := do_eq_ok.1 hv
    obtain ⟨uhi, huhi, hv⟩ := do_eq_ok.1 hv
    have h1 := compileExpr_of_evalExpr e hg hu
    have h2 := compileExpr_of_evalExpr lo hglo hulo
    have h3 := compileExpr_of_evalExpr hi hghi huhi
    simp only [betweenFn, h1, h2, h3, bind, Except.bind]
    by_cases hn : u = .none
    · simpa [hn, pure, Except.pure] using hv
    · rw [if_neg hn]
      simpa [hn, bind, Except.bind] using hv
  | .inList e items negated, f, v, hf, hv => by
    obtain ⟨g, hg, hf⟩ := do_eq_ok.1 hf
    obtain ⟨fns, hfns, hf⟩ := do_eq_ok.1 hf
    cases hf
    obtain ⟨u, hu, hv⟩ := do_eq_ok.1 hv
    have h1 := compileExpr_of_evalExpr e hg hu
    simp only [inFn, h1, bind, Except.bind]
    split
    · rename_i hn
      rw [if_pos hn] at hv
      exact hv
    · rename_i hn
      rw [if_neg hn] at hv
      obtain ⟨result, hr, hv⟩ := do_eq_ok.1 hv
      rw [inItems_of_evalItems (compileExprs_of_evalExpr items hfns) hr]
      rcases result <;> exact hv
  | .like e pat negated, f, v, hf, hv => by
    obtain ⟨g, hg, hf⟩ := do_eq_ok.1 hf
    obtain ⟨gp, hgp, hf⟩ := do_eq_ok.1 hf
    cases hf
    obtain ⟨u, hu, hv⟩ := do_eq_ok.1 hv
    obtain ⟨p, hp, hv⟩ := do_eq_ok.1 hv
    exact do_eq_ok.2 ⟨u, compileExpr_of_evalExpr e hg hu, do_eq_ok.2 ⟨p, compileExpr_of_evalExpr pat hgp hp, hv⟩⟩
  | .unary .not e, f, v, hf, hv => by
    obtain ⟨g, hg, hf⟩ := do_eq_ok.1 hf
    cases hf
    obtain ⟨u, hu, hv⟩ := do_eq_ok.1 hv
    exact do_eq_ok.2 ⟨u, compileExpr_of_evalExpr e hg hu, hv⟩
  | .unary .neg e, f, v, hf, hv => by
    obtain ⟨g, hg, hf⟩ := do_eq_ok.1 hf
    cases hf
    obtain ⟨u, hu, hv⟩ := do_eq_ok.1 hv
    exact do_eq_ok.2 ⟨u, compileExpr_of_evalExpr e hg hu, hv⟩
  | .binop op l r, f, v, hf, hv => by
    obtain ⟨lfn, hlfn, hf⟩ := do_eq_ok.1 hf
    obtain ⟨rfn, hrfn, hf⟩ := do_eq_ok.1 hf
    cases hf
    obtain ⟨lv, hl, hv⟩ := do_eq_ok.1 hv
    obtain ⟨rv, hr, hv⟩ := do_eq_ok.1 hv
    exact binopFn_of_ok (compileExpr_of_evalExpr l hlfn hl) (compileExpr_of_evalExpr r hrfn hr) hv

theorem compileExprs_of_evalExpr : (es : List Expr) → {fns : List Closure} →
    compileExprs lib scope scope.aggAliases env.isSome es = .ok fns →
    List.Forall₂ (fun e f => ∀ u, evalExpr lib scope ctx env e = .ok u → f ctx env = .ok u) es fns
  | [], fns, hf => by
    cases hf
    exact .nil
  | e :: es, fns, hf => by
    obtain ⟨f, hf', hf⟩ := do_eq_ok.1 hf
    obtain ⟨fs, hfs, hf⟩ := do_eq_ok.1 hf
    cases hf
    exact .cons (fun u hu => compileExpr_of_evalExpr e hf' hu) (compileExprs_of_evalExpr es hfs)

end

theorem compiled_agrees (lib : PyLib) (scope : Scope) (ctx : Parts) (env : AggEnv) (e : Expr) {f : Closure} {v : Value}
    (hv : evalExpr lib scope ctx env e = .ok v) (hf : compileExpr lib scope scope.aggAliases env.isSome e = .ok f) :
    f ctx env = .ok v :=
  compileExpr_of_evalExpr e hf hv

/-- `NULL AND 0`. -/
theorem compiled_agrees_null :
    andFn (fun _ _ => .ok .none) (fun _ _ => .ok (.int 0)) [] none = .ok (.bool false) :=
  compiled_agrees ⟨fun _ => "", fun _ _ => false⟩ Scope.empty [] none (.binop .and (.literal .none) (.literal (.int 0))) rfl rfl

end Agree

end LeafDb
