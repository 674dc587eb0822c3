import LeafDb.Sql.RunSelect

/-!
# The primary-key fast path of SELECT (`engine.py`)

`pkFastPath` is `_pk_fast_path`. When it answers, the plan reads the same row, if there is one: the two
differ in how they look at the select list. Without a row the fast path does not look at it at all, so it
misses unknown names and aggregates; with a row it negates a literal by Python's own minus, which raises on
`None`.
-/

namespace LeafDb

/-! ### `_pk_fast_path` -/

/-- `-v`. -/
def Value.pyNeg : Value → Except PyError Value
  | .none => .error .typeError
  | .str _ => .error .typeError
  | .bool b => .ok (.int (if b then -1 else 0))
  | v => .ok v.negate

/-- `literal_of`; `none` stands for `_FastPathFallback`. -/
def literalOf : Expr → Except PyError (Option Value)
  | .literal v => .ok (some v)
  | .unary .neg (.literal (.bool _)) => .ok none
  | .unary .neg (.literal v) => do return some (← v.pyNeg)
  | _ => .ok none

/-- What an item adds to `out_row`; `none` if the fast path gives up. -/
def fastItem (m : TableMeta) (label : String) (row : Row) : SelectItem → Except PyError (Option Row)
  | .star => .ok (some row)
  | .expr (.column name table) _ =>
    if table = none ∨ table = some label then
      match m.columnIndex name with
      | .error _ => .ok none
      | .ok j =>
        match row[j]? with
        | some v => .ok (some [v])
        | none => .error .indexError
    else .ok none
  | .expr e _ => do return (← literalOf e).map fun v => [v]

/-- `out_row`. -/
def fastRow (m : TableMeta) (label : String) (row : Row) : List SelectItem → Except PyError (Option Row)
  | [] => .ok (some [])
  | i :: items => do
    match ← fastItem m label row i with
    | none => return none
    | some vs => return (← fastRow m label row items).map (vs ++ ·)

/-- The statement has no clause that the fast path leaves to the executor. -/
def SelectStmt.plain (sel : SelectStmt) : Bool :=
  sel.joins.isEmpty && !sel.distinct && sel.groupBy.isEmpty && sel.having?.isNone && sel.orderBy.isEmpty &&
    sel.limit?.isNone && decide (sel.offset?.getD 0 = 0)

/-- The column and the literal of a WHERE clause `column = literal`. -/
def whereEquality : Option Expr → Option ((String × Option String) × Value)
  | some (.binop .eq (.column name table) (.literal v)) => some ((name, table), v)
  | some (.binop .eq (.literal v) (.column name table)) => some ((name, table), v)
  | _ => none

/-- `cols` of `_pk_fast_path`. -/
def fastLabels (m : TableMeta) (items : List SelectItem) : List String :=
  items.flatMap fun
    | .star => m.colnames
    | .expr _ label => [label]

/-- The end of `_pk_fast_path`, when the row with the key has been looked up. -/
def fastAnswer (m : TableMeta) (label : String) (items : List SelectItem) :
    Option Row → Except PyError (Option (List String × List Row))
  | none => .ok (some (fastLabels m items, []))
  | some row => do return (← fastRow m label row items).map fun out => (fastLabels m items, [out])

/-- `_pk_fast_path`. -/
def pkFastPath (db : Tables) (sel : SelectStmt) : Except PyError (Option (List String × List Row)) :=
  if sel.plain = false then .ok none
  else
    match whereEquality sel.where? with
    | none => .ok none
    | some (col, v) => do
      let t ← db.get sel.table
      if (col.2 = none ∨ col.2 = some sel.baseAlias) ∧ some col.1 = t.tmeta.pkColumn then
        match coercePk v with
        | .error _ => return none
        | .ok key => fastAnswer t.tmeta sel.baseAlias sel.items (t.search key)
      else return none

/-- The fast path agrees with planner and executor on a statement it does not decline. -/
def FastPathAgrees (lib : PyLib) (db : Tables) (sel : SelectStmt) : Prop :=
  match pkFastPath db sel with
  | .ok none => True
  | .ok (some answer) => runSelect lib db sel = .ok answer
  | .error _ => ∃ e, runSelect lib db sel = .error e

/-! ### When they agree -/

/-- The statement looks up the row of `t` with the primary key `key`. -/
structure PkLookup (db : Tables) (sel : SelectStmt) (t : Table) (key : Int) : Prop where
  plain : sel.plain = true
  table : db.get sel.table = .ok t
  where_eq : ∃ e, whereEquality sel.where? = some e ∧ (e.1.2 = none ∨ e.1.2 = some sel.baseAlias) ∧
    some e.1.1 = t.tmeta.pkColumn ∧ coercePk e.2 = .ok key

/-- An item the fast path copies into the row: `*`, a column of the table, a literal or a negated number. -/
def served (m : TableMeta) (label : String) : SelectItem → Bool
  | .star => true
  | .expr (.column name table) _ => columnMatches (name, table) label m.colnames
  | .expr (.literal _) _ => true
  | .expr (.unary .neg (.literal v)) _ => v.isNumber
  | .expr _ _ => false

/-- The first item the fast path does not copy. -/
def firstUnserved (m : TableMeta) (label : String) (items : List SelectItem) : Option SelectItem :=
  items.find? fun i => !served m label i

def negNull (label : String) : SelectItem := .expr (.unary .neg (.literal .none)) label

section Condition

variable (lib : PyLib)

/-- The values of one item on a row context. -/
def itemValues (scope : Scope) (parts : Parts) (env : AggEnv) : SelectItem → Except PyError Row
  | .star => .ok (starRow scope parts)
  | .expr e _ => do return [← (← compileExpr lib scope [] false e) parts env]

/-- The values of the aggregates of the list on one row; none without aggregates. -/
def rowEnv (sel : SelectStmt) (scope : Scope) (members : List Parts) : Except PyError AggEnv :=
  if sel.grouped then do aggEnv (← sel.aggCalls.mapM (compileAgg lib scope)) members else .ok none

/-- An aggregate of the list or one of the items does not compile or raises on the row. -/
def ListRaises (sel : SelectStmt) (m : TableMeta) (row : Row) : Prop :=
  ∀ env, rowEnv lib sel (singleScope sel.baseAlias m) [[some row]] = .ok env →
    ∃ i ∈ sel.items, ∀ vs, itemValues lib (singleScope sel.baseAlias m) [some row] env i ≠ .ok vs

/-- No row: every item compiles and none contains an aggregate. A row: the first item the fast path does
not copy is not `-NULL`, unless the executor raises on the list too. -/
def SelectListSafe (sel : SelectStmt) (t : Table) : Option Row → Prop
  | none => ∀ e label, .expr e label ∈ sel.items → walkFuncNodes e = [] ∧
      ∃ fn, compileExpr lib (singleScope sel.baseAlias t.tmeta) [] false e = .ok fn
  | some row => ∀ label, firstUnserved t.tmeta sel.baseAlias sel.items = some (negNull label) →
      ListRaises lib sel t.tmeta row

end Condition

/-! ### The row contexts of such a statement -/

section Lookup

variable {lib : PyLib} {db : Tables} {sel : SelectStmt} {t : Table} {key : Int}

theorem plain_iff : sel.plain = true ↔ sel.joins = [] ∧ sel.distinct = false ∧ sel.groupBy = [] ∧ sel.having? = none ∧
    sel.orderBy = [] ∧ sel.limit? = none ∧ sel.offset?.getD 0 = 0 := by
  simp [SelectStmt.plain, and_assoc]

theorem whereEquality_eq {w? : Option Expr} {e : (String × Option String) × Value} (h : whereEquality w? = some e) :
    ∃ w, w? = some w ∧ IsEqui w e := by
  unfold whereEquality at h
  split at h
  · cases h
    exact ⟨_, rfl, .inl rfl⟩
  · cases h
    exact ⟨_, rfl, .inr rfl⟩
  · cases h

theorem compile_equi {m : TableMeta} {label : String} {c : Expr} {e : (String × Option String) × Value}
    (hm : columnMatches e.1 label m.colnames = true) (he : IsEqui c e) :
    ∃ f, compileExpr lib (singleScope label m) [] false c = .ok f := by
  obtain ⟨j, -, hr⟩ := resolve_single hm
  rcases he with rfl | rfl <;>
    exact ⟨_, by simp only [compileExpr, compileColumn, hr]; rfl⟩

/-- WHERE is evaluated to `True` on the row with the key only, whatever access path the planner takes. -/
theorem PkLookup.contexts (h : PkLookup db sel t key) : selectContexts lib db sel.toSelectCore =
    .ok (singleScope sel.baseAlias t.tmeta, (t.search key).toList.map fun row => [some row]) := by
  obtain ⟨hp, hget, e, hw, htab, hpk, hkey⟩ := h
  obtain ⟨w, hw, he⟩ := whereEquality_eq hw
  have hcore : sel.toSelectCore = ⟨sel.table, sel.alias?, [], some w⟩ := by
    rw [← hw, ← (plain_iff.1 hp).1]
  have hm := columnMatches_pk htab hpk
  obtain ⟨fn, hcomp⟩ : ∃ f, compileExpr lib (singleScope sel.baseAlias t.tmeta) [] false w = .ok f := compile_equi hm he
  obtain ⟨j, hj, hval⟩ := equi_value hm he hcomp
  have hok : ∀ r ∈ t.rows, ∃ v, fn [some r.2] none = .ok v := fun r hr =>
    ⟨_, hval r.2 _ (t.pk_eq j (pkIndex_of_pkColumn t.colnames_nodup hpk hj) r hr)⟩
  have hb : NoBoolLiteral w := by
    rw [NoBoolLiteral, findEqui_single he, List.forall_mem_singleton]
    exact not_bool_of_coercePk hkey
  obtain ⟨fns, hfns, hflat⟩ := flatten_compile hcomp
  obtain ⟨Q, hQ, hcov⟩ := chooseAccess_covers hb hfns
  rw [hcore, selectContexts, buildSelectPlan_single hget]
  refine (runPlan_single hok hfns hflat hQ hcov).trans ?_
  obtain rfl := fns_single (flattenAnd_equi he) hcomp hfns
  rw [filter_passes_pk htab he hpk hkey hcomp, ← t.filter_search key]
  simp [Function.comp_def]
  rfl

end Lookup

/-! ### The labels of aggregates do not matter to the select list -/

section Congr

variable {lib : PyLib} {scope scope' : Scope}

theorem resolve_congr (h : scope'.sources = scope.sources) (name : String) (table : Option String) :
    scope'.resolve name table = scope.resolve name table := by
  unfold Scope.resolve
  rw [h]

mutual

theorem compileExpr_congr (h : scope'.sources = scope.sources) {aliases : List (String × Nat)} {agg : Bool} :
    ∀ e, compileExpr lib scope' aliases agg e = compileExpr lib scope aliases agg e
  | .literal v => by rw [compileExpr, compileExpr]
  | .column name table => by rw [compileExpr, compileExpr, compileColumn, compileColumn, resolve_congr h]
  | .func .. => by rw [compileExpr, compileExpr]
  | .isNull e _ => by rw [compileExpr, compileExpr, compileExpr_congr h e]
  | .between e lo hi _ => by
    rw [compileExpr, compileExpr, compileExpr_congr h e, compileExpr_congr h lo, compileExpr_congr h hi]
  | .inList e items _ => by rw [compileExpr, compileExpr, compileExpr_congr h e, compileExprs_congr h items]
  | .like e pat _ => by rw [compileExpr, compileExpr, compileExpr_congr h e, compileExpr_congr h pat]
  | .unary .not e => by rw [compileExpr, compileExpr, compileExpr_congr h e]
  | .unary .neg e => by rw [compileExpr, compileExpr, compileExpr_congr h e]
  | .binop _ l r => by rw [compileExpr, compileExpr, compileExpr_congr h l, compileExpr_congr h r]

theorem compileExprs_congr (h : scope'.sources = scope.sources) {aliases : List (String × Nat)} {agg : Bool} :
    ∀ es, compileExprs lib scope' aliases agg es = compileExprs lib scope aliases agg es
  | [] => by rw [compileExprs, compileExprs]
  | e :: es => by rw [compileExprs, compileExprs, compileExpr_congr h e, compileExprs_congr h es]

end

theorem compileAgg_congr (h : scope'.sources = scope.sources) : compileAgg lib scope' = compileAgg lib scope := by
  funext f
  unfold compileAgg
  simp only [compileExpr_congr h]

theorem itemValues_congr (h : scope'.sources = scope.sources) (parts : Parts) (env : AggEnv) (i : SelectItem) :
    itemValues lib scope' parts env i = itemValues lib scope parts env i := by
  rcases i with _ | ⟨e, label⟩
  · rw [itemValues, itemValues, starRow, starRow, h]
  · rw [itemValues, itemValues, compileExpr_congr h]

end Congr

/-! ### The executor on these statements -/

section Executor

variable {lib : PyLib} {db : Tables} {sel : SelectStmt} {t : Table} {key : Int} {scope : Scope}

/-- The values of a unit are those of its items, one after the other. -/
theorem outRow_iff {u : SelectUnit} {items : List SelectItem} {out : Row} :
    (∃ fns, items.mapM (itemFn lib scope) = .ok fns ∧ outRow scope u fns = .ok out) ↔
      ∃ vss, List.Forall₂ (fun i vs => itemValues lib scope u.parts u.aggEnv i = .ok vs) items vss ∧ out = vss.flatten := by
  induction items generalizing out with
  | nil => simp [outRow, pure, Except.pure, eq_comm]
  | cons i items ih =>
    simp only [List.mapM_cons, List.forall₂_cons_left_iff]
    constructor
    · rintro ⟨fns, hfns, hout⟩
      obtain ⟨fn, hfn, hfns⟩ := do_eq_ok.1 hfns
      obtain ⟨fns, hfns', h⟩ := do_eq_ok.1 hfns
      cases h
      rcases i with _ | ⟨e, label⟩
      · cases hfn
        obtain ⟨rest, hrest, h⟩ := do_eq_ok.1 hout
        cases h
        obtain ⟨vss, hvss, rfl⟩ := ih.1 ⟨fns, hfns', hrest⟩
        exact ⟨_ :: vss, ⟨_, vss, rfl, hvss, rfl⟩, rfl⟩
      · obtain ⟨f, hf, h⟩ := do_eq_ok.1 hfn
        cases h
        obtain ⟨v, hv, hout⟩ := do_eq_ok.1 hout
        obtain ⟨rest, hrest, h⟩ := do_eq_ok.1 hout
        cases h
        obtain ⟨vss, hvss, rfl⟩ := ih.1 ⟨fns, hfns', hrest⟩
        refine ⟨[v] :: vss, ⟨_, vss, ?_, hvss, rfl⟩, rfl⟩
        simp [itemValues, hf, hv, bind, Except.bind, pure, Except.pure]
    · rintro ⟨_, ⟨vs, vss, hvs, hvss, rfl⟩, rfl⟩
      obtain ⟨fns, hfns, hout⟩ := ih.2 ⟨vss, hvss, rfl⟩
      rcases i with _ | ⟨e, label⟩
      · cases hvs
        refine ⟨none :: fns, ?_, ?_⟩
        · simp [itemFn, hfns, bind, Except.bind, pure, Except.pure]
        · simp [outRow, hout, bind, Except.bind, pure, Except.pure]
      · obtain ⟨f, hf, hvs⟩ := do_eq_ok.1 hvs
        obtain ⟨v, hv, h⟩ := do_eq_ok.1 hvs
        cases h
        refine ⟨some f :: fns, ?_, ?_⟩
        · simp [itemFn, hf, hfns, bind, Except.bind, pure, Except.pure]
        · simp [outRow, hv, hout, bind, Except.bind, pure, Except.pure]

/-- Without DISTINCT, ORDER BY, LIMIT and OFFSET the rows of the units are the result. -/
theorem runSelect_plain (hp : sel.plain = true) {contexts : List Parts} {units : List SelectUnit}
    (hc : selectContexts lib db sel.toSelectCore = .ok (scope, contexts)) {scope' : Scope}
    (hu : selectUnits lib sel scope contexts = .ok (scope', units)) :
    runSelect lib db sel = (do
      let fns ← sel.items.mapM (itemFn lib scope')
      let rows ← units.mapM fun u => outRow scope' u fns
      return (sel.columnLabels scope', rows)) := by
  obtain ⟨-, hd, -, -, ho, hl, hoff⟩ := plain_iff.1 hp
  have hproject : ∀ (fns : List (Option Closure)) (us : List SelectUnit), us.mapM (projectUnit scope' fns []) =
      (us.mapM fun u => outRow scope' u fns).map fun rows => rows.map fun row => ⟨row, []⟩ := by
    intro fns us
    induction us with
    | nil => rfl
    | cons u us ih =>
      rw [List.mapM_cons, List.mapM_cons, ih, projectUnit]
      rcases outRow scope' u fns with e | out
      · rfl
      · rcases us.mapM fun u => outRow scope' u fns with e | rows <;> rfl
  rw [runSelect, hc]
  simp only [bind, Except.bind, hu, ho, hd, List.mapM_nil, pure, Except.pure, hproject]
  rcases sel.items.mapM (itemFn lib scope') with e | fns
  · rfl
  · dsimp only
    generalize (units.mapM fun u => outRow scope' u fns) = rows
    rcases rows with e | rows
    · rfl
    · simp [Except.map, slice, sortRows, hl, hoff, Function.comp_def]

/-- The units without GROUP BY and HAVING: one group if there is an aggregate. -/
def plainUnits (sel : SelectStmt) (scope : Scope) (contexts : List Parts) (env : AggEnv) : List SelectUnit :=
  if sel.grouped then [⟨contexts.head?.getD (List.replicate scope.sources.length none), contexts, env⟩]
  else contexts.map fun parts => ⟨parts, none, env⟩

theorem selectUnits_plain (hp : sel.plain = true) (contexts : List Parts) :
    ∃ scope', scope'.sources = scope.sources ∧ selectUnits lib sel scope contexts = do
      let env ← rowEnv lib sel scope contexts
      return (scope', plainUnits sel scope contexts env) := by
  obtain ⟨-, -, hg, hh, -⟩ := plain_iff.1 hp
  rcases hgr : sel.grouped with _ | _
  · exact ⟨scope, rfl, by simp [selectUnits, rowEnv, plainUnits, hgr, hh, bind, Except.bind, pure, Except.pure]⟩
  set scope' : Scope := { scope with aggAliases := sel.aggAliases ++ scope.aggAliases } with hscope'
  have hsrc : scope'.sources = scope.sources := rfl
  refine ⟨scope', hsrc, ?_⟩
  rw [selectUnits, if_pos hgr, rowEnv, if_pos hgr]
  simp only [aggregate, hg, hh, ← hscope', compileAgg_congr hsrc, List.mapM_nil, Option.mapM_none, groupContexts,
    plainUnits, if_pos hgr]
  rcases sel.aggCalls.mapM (compileAgg lib scope) with e | aggs
  · rfl
  · rcases henv : aggEnv aggs contexts with e | env <;>
      simp [henv, hscope', bind, Except.bind, pure, Except.pure]

theorem runSelect_eq_ok (hp : sel.plain = true) {contexts : List Parts}
    (hc : selectContexts lib db sel.toSelectCore = .ok (scope, contexts)) :
    ∃ scope', scope'.sources = scope.sources ∧ ∀ answer, runSelect lib db sel = .ok answer ↔
      ∃ env fns rows, rowEnv lib sel scope contexts = .ok env ∧ sel.items.mapM (itemFn lib scope') = .ok fns ∧
        (plainUnits sel scope contexts env).mapM (fun u => outRow scope' u fns) = .ok rows ∧
        answer = (sel.columnLabels scope', rows) := by
  obtain ⟨scope', hsrc, hunits⟩ := @selectUnits_plain lib sel scope hp contexts
  refine ⟨scope', hsrc, fun answer => ?_⟩
  rcases henv : rowEnv lib sel scope contexts with e | env
  · rw [henv] at hunits
    rw [runSelect, hc]
    simp [hunits, bind, Except.bind]
  · rw [henv] at hunits
    rw [runSelect_plain hp hc hunits, do_eq_ok]
    constructor
    · rintro ⟨fns, hfns, hrest⟩
      obtain ⟨rows, hrows, h⟩ := do_eq_ok.1 hrest
      exact ⟨env, fns, rows, rfl, hfns, hrows, (Except.ok.inj h).symm⟩
    · rintro ⟨env', fns, rows, he, hfns, hrows, rfl⟩
      cases he
      exact ⟨fns, hfns, do_eq_ok.2 ⟨rows, hrows, rfl⟩⟩

theorem columnLabels_single {label : String} {m : TableMeta} (h : scope.sources = (singleScope label m).sources) :
    sel.columnLabels scope = fastLabels m sel.items := by
  rw [SelectStmt.columnLabels, fastLabels, h]
  refine List.flatMap_congr fun i _ => ?_
  rcases i with _ | ⟨e, label⟩ <;> simp [singleScope]

/-- The executor on a row that is there. -/
theorem runSelect_present (h : PkLookup db sel t key) {row : Row} (hrow : t.search key = some row)
    {answer : List String × List Row} : runSelect lib db sel = .ok answer ↔
      ∃ env vss, rowEnv lib sel (singleScope sel.baseAlias t.tmeta) [[some row]] = .ok env ∧
        List.Forall₂ (fun i vs => itemValues lib (singleScope sel.baseAlias t.tmeta) [some row] env i = .ok vs)
          sel.items vss ∧ answer = (fastLabels t.tmeta sel.items, [vss.flatten]) := by
  have hc := @PkLookup.contexts lib _ _ _ _ h
  rw [hrow] at hc
  obtain ⟨scope', hsrc, hrun⟩ := runSelect_eq_ok h.plain hc
  have hunits : ∀ env, ∃ ctx, plainUnits sel (singleScope sel.baseAlias t.tmeta) [[some row]] env = [⟨[some row], ctx, env⟩] := by
    intro env
    rw [plainUnits]
    split <;> exact ⟨_, rfl⟩
  simp only [Option.toList_some, List.map_cons, List.map_nil] at hrun
  simp only [hrun, columnLabels_single hsrc, ← itemValues_congr hsrc]
  constructor
  · rintro ⟨env, fns, rows, henv, hfns, hrows, rfl⟩
    obtain ⟨ctx, hctx⟩ := hunits env
    rw [hctx, List.mapM_cons, List.mapM_nil] at hrows
    obtain ⟨out, hout, hrows⟩ := do_eq_ok.1 hrows
    cases hrows
    obtain ⟨vss, hvss, rfl⟩ := outRow_iff.1 ⟨fns, hfns, hout⟩
    exact ⟨env, vss, henv, hvss, rfl⟩
  · rintro ⟨env, vss, henv, hvss, rfl⟩
    obtain ⟨ctx, hctx⟩ := hunits env
    obtain ⟨fns, hfns, hout⟩ := (outRow_iff (u := ⟨[some row], ctx, env⟩)).2 ⟨vss, hvss, rfl⟩
    refine ⟨env, fns, _, henv, hfns, ?_, rfl⟩
    rw [hctx, List.mapM_cons, List.mapM_nil]
    exact do_eq_ok.2 ⟨_, hout, rfl⟩

/-- The executor without a row: the aggregates of the empty group, or nothing. -/
theorem runSelect_absent (h : PkLookup db sel t key) (hrow : t.search key = none) :
    if sel.grouped then ∀ labels, runSelect lib db sel ≠ .ok (labels, []) else
      runSelect lib db sel = .ok (fastLabels t.tmeta sel.items, []) ↔ ∀ e label, .expr e label ∈ sel.items →
        ∃ fn, compileExpr lib (singleScope sel.baseAlias t.tmeta) [] false e = .ok fn := by
  have hc := @PkLookup.contexts lib _ _ _ _ h
  rw [hrow] at hc
  obtain ⟨scope', hsrc, hrun⟩ := runSelect_eq_ok h.plain hc
  simp only [Option.toList_none, List.map_nil] at hrun
  split
  · rename_i hg
    rintro labels hok
    obtain ⟨env, fns, rows, -, -, hrows, he⟩ := (hrun _).1 hok
    rw [plainUnits, if_pos hg, List.mapM_cons] at hrows
    obtain ⟨out, -, hrows⟩ := do_eq_ok.1 hrows
    obtain ⟨rest, -, hrows⟩ := do_eq_ok.1 hrows
    cases hrows
    cases he
  · rename_i hg
    simp only [hrun, rowEnv, plainUnits, if_neg hg, List.map_nil, List.mapM_nil, columnLabels_single hsrc]
    constructor
    · rintro ⟨_, fns, _, -, hfns, -, -⟩ e label hi
      obtain ⟨n, hn⟩ := List.getElem?_of_mem hi
      obtain ⟨fn, -, hfn⟩ := forall₂_getElem? (mapM_eq_ok.1 hfns) hn
      obtain ⟨f, hf, -⟩ := do_eq_ok.1 hfn
      exact ⟨f, by rw [← compileExpr_congr hsrc, hf]⟩
    · intro hall
      obtain ⟨fns, hfns⟩ := exists_mapM (l := sel.items) (f := itemFn lib scope') fun i hi => by
        rcases i with _ | ⟨e, label⟩
        · exact ⟨none, rfl⟩
        · obtain ⟨f, hf⟩ := hall e label hi
          exact ⟨some f, by simp [itemFn, compileExpr_congr hsrc, hf, bind, Except.bind, pure, Except.pure]⟩
      exact ⟨none, fns, [], rfl, hfns, rfl, rfl⟩

/-- The executor raises on a row exactly when the select list does. -/
theorem runSelect_raises (h : PkLookup db sel t key) {row : Row} (hrow : t.search key = some row) :
    (∃ e, runSelect lib db sel = .error e) ↔ ListRaises lib sel t.tmeta row := by
  have hok := fun answer => @runSelect_present lib db sel t key h row hrow answer
  constructor
  · rintro ⟨e, he⟩ env henv
    by_contra hall
    push Not at hall
    obtain ⟨vss, hvss⟩ := exists_mapM hall
    have := (hok _).2 ⟨env, vss, henv, mapM_eq_ok.1 hvss, rfl⟩
    rw [he] at this
    cases this
  · intro hraise
    rcases hrun : runSelect lib db sel with e | answer
    · exact ⟨e, rfl⟩
    · obtain ⟨env, vss, henv, hvss, -⟩ := (hok _).1 hrun
      obtain ⟨i, hi, hno⟩ := hraise env henv
      obtain ⟨n, hn⟩ := List.getElem?_of_mem hi
      obtain ⟨vs, -, hvs⟩ := forall₂_getElem? hvss hn
      exact absurd hvs (hno vs)

theorem grouped_iff (hp : sel.plain = true) :
    sel.grouped = true ↔ ∃ e label, SelectItem.expr e label ∈ sel.items ∧ walkFuncNodes e ≠ [] := by
  obtain ⟨-, -, hg, hh, ho, -⟩ := plain_iff.1 hp
  simp only [SelectStmt.grouped, SelectStmt.walkInItems, hg, hh, ho, List.isEmpty_nil, Bool.not_true, Bool.false_or,
    Option.any_none, List.any_nil, Bool.or_false, List.any_eq_true, Bool.not_eq_true', List.isEmpty_eq_false_iff]
  constructor
  · rintro ⟨i, hi, hne⟩
    rcases i with _ | ⟨e, label⟩
    · exact absurd rfl hne
    · exact ⟨e, label, hi, fun h => hne (funcNodes_eq_nil.2 h)⟩
  · rintro ⟨e, label, hi, hne⟩
    exact ⟨_, hi, fun h => hne (funcNodes_eq_nil.1 h)⟩

end Executor

/-! ### The loop over the select list -/

section Items

variable {lib : PyLib} {m : TableMeta} {label : String} {row : Row} {items : List SelectItem}

/-- An item the fast path copies has the same values in the executor. -/
theorem fastItem_served (hw : row.length = m.columns.length) {i : SelectItem} (h : served m label i = true) :
    ∃ vs, fastItem m label row i = .ok (some vs) ∧
      ∀ (lib : PyLib) env, itemValues lib (singleScope label m) [some row] env i = .ok vs := by
  unfold served at h
  split at h
  · exact ⟨row, rfl, fun lib env => by simp [itemValues, starRow, singleScope, ← hw]⟩
  · rename_i name table _
    obtain ⟨j, hj, hr⟩ := resolve_single h
    have hjl : j < row.length := by
      have := (List.idxOf?_eq_some_iff.1 hj).1
      rw [hw]
      simpa [TableMeta.colnames] using this
    have htab : table = none ∨ table = some label := by
      rcases table with _ | tb
      · exact .inl rfl
      · simp only [columnMatches, decide_eq_true_eq] at h
        exact .inr (congrArg some h.1)
    refine ⟨[row[j]], ?_, fun lib env => ?_⟩
    · simp [fastItem, htab, TableMeta.columnIndex, hj, hjl]
    · simp [itemValues, compileExpr, compileColumn, hr, readCol, hjl, bind, Except.bind, pure, Except.pure]
  · rename_i v _
    exact ⟨[v], rfl, fun lib env => by simp [itemValues, compileExpr, bind, Except.bind, pure, Except.pure]⟩
  · rename_i v _
    refine ⟨[v.negate], ?_, fun lib env => ?_⟩
    · rcases v with _ | b | n | f | s
      · cases h
      · cases h
      · rfl
      · rfl
      · cases h
    · have hne : v ≠ .none := by
        rintro rfl
        cases h
      simp [itemValues, compileExpr, negFn, hne, h, bind, Except.bind, pure, Except.pure]
  · cases h

/-- The fast path gives up on the other items, or raises when it negates `None` or a text. -/
theorem fastItem_unserved (row : Row) {i : SelectItem} (h : served m label i = false) :
    fastItem m label row i = .ok none ∨ ∃ v l, i = .expr (.unary .neg (.literal v)) l ∧ (v = .none ∨ v.isStr = true) ∧
      fastItem m label row i = .error .typeError := by
  unfold served at h
  split at h
  · cases h
  · rename_i name table _
    left
    rw [fastItem]
    split
    · rename_i htab
      have hn : name ∉ m.colnames := by
        intro hn
        rcases htab with rfl | rfl <;> simp [columnMatches, hn] at h
      simp [TableMeta.columnIndex, List.idxOf?_eq_none_iff.2 hn]
    · rfl
  · cases h
  · rename_i v l
    rcases v with _ | b | n | f | s
    · exact .inr ⟨_, l, rfl, .inl rfl, rfl⟩
    · exact .inl rfl
    · cases h
    · cases h
    · exact .inr ⟨_, l, rfl, .inr rfl, rfl⟩
  · rename_i e l hcol hlit hneg
    left
    have hfall : literalOf e = .ok none := by
      unfold literalOf
      split
      · exact absurd rfl (hlit _)
      · rfl
      · exact absurd rfl (hneg _)
      · rfl
    unfold fastItem
    split
    · rename_i he
      cases he
    · rename_i he
      cases he
      exact absurd rfl (hcol _ _)
    · rename_i he
      cases he
      rw [hfall]
      rfl

theorem served_no_aggregate {e : Expr} {l : String} (h : served m label (.expr e l) = true) : walkFuncNodes e = [] := by
  unfold served at h
  split at h
  · rename_i he
    cases he
  · rename_i he
    cases he
    rfl
  · rename_i he
    cases he
    rfl
  · rename_i he
    cases he
    rfl
  · cases h

theorem fastRow_served (hw : row.length = m.columns.length) (h : firstUnserved m label items = none) :
    ∃ vss, fastRow m label row items = .ok (some vss.flatten) ∧
      ∀ env, List.Forall₂ (fun i vs => itemValues lib (singleScope label m) [some row] env i = .ok vs) items vss := by
  induction items with
  | nil => exact ⟨[], rfl, fun _ => .nil⟩
  | cons i items ih =>
    rw [firstUnserved, List.find?_eq_none, List.forall_mem_cons] at h
    obtain ⟨vs, hfast, hvs⟩ := fastItem_served hw (by simpa using h.1)
    obtain ⟨vss, hrest, hvss⟩ := ih (List.find?_eq_none.2 h.2)
    refine ⟨vs :: vss, ?_, fun env => .cons (hvs lib env) (hvss env)⟩
    simp [fastRow, hfast, hrest, bind, Except.bind, pure, Except.pure]

/-- The loop ends at the first item that is not copied. -/
theorem fastRow_unserved (hw : row.length = m.columns.length) {i : SelectItem}
    (h : firstUnserved m label items = some i) : fastRow m label row items = fastItem m label row i := by
  induction items with
  | nil => cases h
  | cons i' items ih =>
    rw [firstUnserved, List.find?_cons] at h
    rcases hs : served m label i' with _ | _
    · simp only [hs, Bool.not_false, Option.some.injEq] at h
      subst h
      rcases fastItem_unserved row hs with hf | ⟨v, l, -, -, hf⟩ <;>
        simp [fastRow, hf, bind, Except.bind, pure, Except.pure]
    · simp only [hs, Bool.not_true] at h
      have hrest := ih h
      have hi : served m label i = false := by simpa using List.find?_some h
      obtain ⟨vs, hfast, -⟩ := fastItem_served hw hs
      rw [fastRow, hfast]
      rcases fastItem_unserved row hi with hf | ⟨v, l, -, -, hf⟩ <;>
        simp [hrest, hf, bind, Except.bind, pure, Except.pure]

end Items

/-! ### Exactly when they agree -/

section Agree

variable {lib : PyLib} {db : Tables} {sel : SelectStmt} {t : Table} {key : Int}

theorem PkLookup.fast_eq (h : PkLookup db sel t key) :
    pkFastPath db sel = fastAnswer t.tmeta sel.baseAlias sel.items (t.search key) := by
  obtain ⟨hp, hget, e, hw, htab, hpk, hkey⟩ := h
  simp [pkFastPath, hp, hw, hget, htab, hpk, hkey, bind, Except.bind]

theorem PkLookup.unique (h : PkLookup db sel t key) {t' : Table} {key' : Int} (h' : PkLookup db sel t' key') :
    t' = t ∧ key' = key := by
  obtain ⟨-, hget, e, hw, -, -, hkey⟩ := h
  obtain ⟨-, hget', e', hw', -, -, hkey'⟩ := h'
  rw [hget] at hget'
  rw [hw] at hw'
  cases hget'
  cases hw'
  rw [hkey] at hkey'
  cases hkey'
  exact ⟨rfl, rfl⟩

/-- On the other statements the fast path declines, or both look for a table that does not exist. -/
theorem agrees_of_no_lookup (h : ∀ t key, ¬PkLookup db sel t key) : FastPathAgrees lib db sel := by
  unfold FastPathAgrees pkFastPath
  rcases hp : sel.plain with _ | _
  · simp
  rw [if_neg (by simp)]
  rcases hw : whereEquality sel.where? with _ | ⟨col, v⟩
  · trivial
  rcases ht : db.get sel.table with e | t
  · exact ⟨e, by simp [runSelect, selectContexts, buildSelectPlan, ht, bind, Except.bind]⟩
  simp only [bind, Except.bind]
  split_ifs with hc
  · rcases hk : coercePk v with e | key
    · trivial
    · exact absurd ⟨hp, ht, _, hw, hc.1, hc.2, hk⟩ (h t key)
  · trivial

theorem agrees_absent (h : PkLookup db sel t key) (hrow : t.search key = none) :
    FastPathAgrees lib db sel ↔ SelectListSafe lib sel t none := by
  have habsent := @runSelect_absent lib _ _ _ _ h hrow
  rw [FastPathAgrees, h.fast_eq, hrow, SelectListSafe]
  change runSelect lib db sel = _ ↔ _
  rcases hg : sel.grouped with _ | _
  · rw [hg, if_neg (by simp)] at habsent
    rw [habsent]
    have hno : ∀ e label, SelectItem.expr e label ∈ sel.items → walkFuncNodes e = [] := by
      intro e label hi
      by_contra hne
      rw [(grouped_iff h.plain).2 ⟨e, label, hi, hne⟩] at hg
      cases hg
    exact ⟨fun hall e label hi => ⟨hno e label hi, hall e label hi⟩, fun hall e label hi => (hall e label hi).2⟩
  · rw [hg, if_pos rfl] at habsent
    obtain ⟨e, label, hi, hne⟩ := (grouped_iff h.plain).1 hg
    exact ⟨fun hok => absurd hok (habsent _), fun hall => absurd (hall e label hi).1 hne⟩

theorem agrees_present (h : PkLookup db sel t key) {row : Row} (hrow : t.search key = some row) :
    FastPathAgrees lib db sel ↔ SelectListSafe lib sel t (some row) := by
  have hw : row.length = t.tmeta.columns.length := t.width _ (t.search_eq_some.1 hrow)
  rw [FastPathAgrees, h.fast_eq, hrow, SelectListSafe, fastAnswer]
  rcases hfirst : firstUnserved t.tmeta sel.baseAlias sel.items with _ | i
  · obtain ⟨vss, hfast, hvss⟩ := @fastRow_served lib _ _ _ _ hw hfirst
    have hg : sel.grouped = false := by
      rw [← Bool.not_eq_true, grouped_iff h.plain]
      rintro ⟨e, l, hi, hne⟩
      exact hne (served_no_aggregate (by simpa using List.find?_eq_none.1 hfirst _ hi))
    have hrun := (@runSelect_present lib _ _ _ _ h _ hrow _).2
      ⟨none, vss, by simp [rowEnv, hg], hvss none, rfl⟩
    simp [hfast, hrun, bind, Except.bind, pure, Except.pure]
  · have hi : served t.tmeta sel.baseAlias i = false := by simpa using List.find?_some hfirst
    rw [fastRow_unserved hw hfirst]
    rcases fastItem_unserved row hi with hf | ⟨v, l, rfl, hv, hf⟩
    · simp only [hf, bind, Except.bind, pure, Except.pure, Option.map_none, true_iff, Option.some.injEq]
      rintro l rfl
      cases hf
    · simp only [hf, bind, Except.bind, runSelect_raises h hrow]
      refine ⟨fun hraise _ _ => hraise, fun hsafe => ?_⟩
      rcases hv with rfl | hv
      · exact hsafe l rfl
      · -- the executor refuses to negate a text as well
        refine fun env _ => ⟨_, List.mem_of_find?_eq_some hfirst, fun vs hvs => ?_⟩
        rcases v with _ | b | n | f | s
        iterate 4 cases hv
        cases hvs

/-- The fast path agrees with planner and executor exactly when the select list is safe. -/
theorem fastPathAgrees_iff (lib : PyLib) (db : Tables) (sel : SelectStmt) :
    FastPathAgrees lib db sel ↔ ∀ t key, PkLookup db sel t key → SelectListSafe lib sel t (t.search key) := by
  by_cases h : ∃ t key, PkLookup db sel t key
  · obtain ⟨t, key, h⟩ := h
    have hone : (∀ t key, PkLookup db sel t key → SelectListSafe lib sel t (t.search key)) ↔
        SelectListSafe lib sel t (t.search key) := by
      refine ⟨fun hall => hall t key h, fun hsafe t' key' h' => ?_⟩
      obtain ⟨rfl, rfl⟩ := h.unique h'
      exact hsafe
    rw [hone]
    rcases hrow : t.search key with _ | row
    · exact agrees_absent h hrow
    · exact agrees_present h hrow
  · push Not at h
    exact iff_of_true (agrees_of_no_lookup h) fun t key h' => absurd h' (h t key)

end Agree

/-! ### `SELECT COUNT(*) FROM t WHERE id = 99` and `SELECT -NULL FROM t WHERE id = 1` -/

theorem ascending_idTable : [((1 : Int), ([.int 1] : Row))].Pairwise (fun a b => a.1 < b.1) := List.pairwise_singleton _ _

/-- `CREATE TABLE t (id INT PRIMARY KEY)` with the row 1. -/
def idTable : Table where
  tmeta := ⟨"t", [⟨"id", .int, true⟩], 1, 1, 2, []⟩
  rows := [(1, [.int 1])]
  index := fun _ => none
  colnames_nodup := by decide
  ascending := ascending_idTable
  width := by decide
  pk_eq := by
    intro i hi r hr
    obtain rfl : i = 0 := by simpa [TableMeta.pkIndex, eq_comm] using hi
    obtain rfl := List.mem_singleton.1 hr
    rfl
  index_agrees := by simp

/-- `SELECT item FROM t WHERE id = key`. -/
def idQuery (item : Expr) (label : String) (key : Int) : SelectStmt where
  table := "t"
  alias? := none
  joins := []
  where? := some (.binop .eq (.column "id" none) (.literal (.int key)))
  distinct := false
  items := [.expr item label]
  groupBy := []
  having? := none
  orderBy := []
  limit? := none
  offset? := none

theorem not_fastPathAgrees :
    (pkFastPath [idTable] (idQuery (.func 0 "COUNT" none true false) "COUNT(*)" 99) = .ok (some (["COUNT(*)"], [])) ∧
      runSelect plainLib [idTable] (idQuery (.func 0 "COUNT" none true false) "COUNT(*)" 99) =
        .ok (["COUNT(*)"], [[.int 0]])) ∧
    (pkFastPath [idTable] (idQuery (.unary .neg (.literal .none)) "-NULL" 1) = .error .typeError ∧
      runSelect plainLib [idTable] (idQuery (.unary .neg (.literal .none)) "-NULL" 1) = .ok (["-NULL"], [[.none]])) ∧
    ¬FastPathAgrees plainLib [idTable] (idQuery (.func 0 "COUNT" none true false) "COUNT(*)" 99) := by
  have hfast : pkFastPath [idTable] (idQuery (.func 0 "COUNT" none true false) "COUNT(*)" 99) =
      .ok (some (["COUNT(*)"], [])) := by decide +kernel
  have hrun : runSelect plainLib [idTable] (idQuery (.func 0 "COUNT" none true false) "COUNT(*)" 99) =
      .ok (["COUNT(*)"], [[.int 0]]) := by decide +kernel
  refine ⟨⟨hfast, hrun⟩, ⟨by decide +kernel, by decide +kernel⟩, fun h => ?_⟩
  rw [FastPathAgrees, hfast] at h
  rw [hrun] at h
  cases h

end LeafDb
