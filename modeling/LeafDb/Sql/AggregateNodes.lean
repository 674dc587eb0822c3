import LeafDb.Sql.GroupBy

/-!
# Which aggregates are found

`walk_func_nodes` looks below operators and IS NULL only, while `compile_expr` also compiles the operands
of BETWEEN, IN and LIKE. An aggregate there is not computed, and reading it raises.
-/

namespace LeafDb

/-! ### Aggregates of an expression -/

mutual

/-- The aggregate calls of an expression that are not in the argument of another one. -/
def aggregates : Expr → List AggCall
  | .literal _ => []
  | .column _ _ => []
  | .func id name arg star distinct => [⟨id, name, arg, star, distinct⟩]
  | .isNull e _ => aggregates e
  | .between e lo hi _ => aggregates e ++ aggregates lo ++ aggregates hi
  | .inList e items _ => aggregates e ++ aggregatesOfItems items
  | .like e pat _ => aggregates e ++ aggregates pat
  | .unary _ e => aggregates e
  | .binop _ l r => aggregates l ++ aggregates r

def aggregatesOfItems : List Expr → List AggCall
  | [] => []
  | e :: es => aggregates e ++ aggregatesOfItems es

end

/-- No aggregate call stands below BETWEEN, IN or LIKE. -/
def AggregatesVisible : Expr → Prop
  | .binop _ l r => AggregatesVisible l ∧ AggregatesVisible r
  | .unary _ e => AggregatesVisible e
  | .isNull e _ => AggregatesVisible e
  | .between e lo hi _ => aggregates e = [] ∧ aggregates lo = [] ∧ aggregates hi = []
  | .inList e items _ => aggregates e = [] ∧ aggregatesOfItems items = []
  | .like e pat _ => aggregates e = [] ∧ aggregates pat = []
  | _ => True

/-- `walk_func_nodes` collects some of the aggregates, in their order. -/
theorem funcNodes_sublist (e : Expr) : (funcNodes e).Sublist (aggregates e) := by
  induction e using funcNodes.induct with
  | case1 _ l r ihl ihr =>
    rw [funcNodes, aggregates]
    exact ihl.append ihr
  | case2 _ e ih =>
    rw [funcNodes, aggregates]
    exact ih
  | case3 e _ ih =>
    rw [funcNodes, aggregates]
    exact ih
  | case4 id name arg star distinct =>
    rw [funcNodes, aggregates]
  | case5 e h₁ h₂ h₃ h₄ =>
    rw [funcNodes.eq_5 e h₁ h₂ h₃ h₄]
    exact List.nil_sublist _

theorem append_eq_append_of_sublist {α : Type*} {a b c d : List α} (h : a.Sublist c) (h' : b.Sublist d)
    (heq : a ++ b = c ++ d) : a = c ∧ b = d := by
  have hlen := congrArg List.length heq
  rw [List.length_append, List.length_append] at hlen
  have := h.length_le
  have := h'.length_le
  exact ⟨h.eq_of_length (by omega), h'.eq_of_length (by omega)⟩

/-- It collects all of them where none is hidden, and only there. -/
theorem funcNodes_eq_iff (e : Expr) : funcNodes e = aggregates e ↔ AggregatesVisible e := by
  induction e using funcNodes.induct with
  | case1 _ l r ihl ihr =>
    rw [funcNodes, aggregates, AggregatesVisible, ← ihl, ← ihr]
    constructor
    · exact append_eq_append_of_sublist (funcNodes_sublist l) (funcNodes_sublist r)
    · rintro ⟨hl, hr⟩
      rw [hl, hr]
  | case2 _ e ih => rw [funcNodes, aggregates, AggregatesVisible, ih]
  | case3 e _ ih => rw [funcNodes, aggregates, AggregatesVisible, ih]
  | case4 id name arg star distinct => simp [funcNodes, aggregates, AggregatesVisible]
  | case5 e h₁ h₂ h₃ h₄ =>
    rw [funcNodes.eq_5 e h₁ h₂ h₃ h₄, eq_comm]
    cases e with
    | literal => simp [aggregates, AggregatesVisible]
    | column => simp [aggregates, AggregatesVisible]
    | func id name arg star distinct => exact (h₄ id name arg star distinct rfl).elim
    | isNull e negated => exact (h₃ e negated rfl).elim
    | between => simp [aggregates, AggregatesVisible]
    | inList => simp [aggregates, AggregatesVisible]
    | like => simp [aggregates, AggregatesVisible]
    | unary op e => exact (h₂ op e rfl).elim
    | binop op l r => exact (h₁ op l r rfl).elim

/-! ### What a compiled expression reads of the environment -/

section Reads

variable {env env' : AggEnv}

/-- Two environments agree on the aggregates with these identities. -/
def AgreeOn (ids : List Nat) (env env' : AggEnv) : Prop := ∀ id ∈ ids, env.bind (· id) = env'.bind (· id)

theorem AgreeOn.mono {ids ids' : List Nat} (h : AgreeOn ids env env') (hs : ∀ id ∈ ids', id ∈ ids) : AgreeOn ids' env env' :=
  fun id hid => h id (hs id hid)

/-- A closure cannot tell two environments apart. -/
def Closure.Blind (f : Closure) (env env' : AggEnv) : Prop := ∀ parts, f parts env = f parts env'

theorem readAgg_blind {id : Nat} (h : env.bind (· id) = env'.bind (· id)) : (readAgg id).Blind env env' := by
  intro parts
  rw [readAgg, readAgg, h]

theorem isNullFn_blind {f : Closure} (hf : f.Blind env env') (negated : Bool) : (isNullFn f negated).Blind env env' :=
  fun parts => by rw [isNullFn, isNullFn, hf]

theorem betweenFn_blind {f lo hi : Closure} (hf : f.Blind env env') (hlo : lo.Blind env env') (hhi : hi.Blind env env')
    (negated : Bool) : (betweenFn f lo hi negated).Blind env env' :=
  fun parts => by simp only [betweenFn, hf parts, hlo parts, hhi parts]

theorem inItems_blind {fns : List Closure} (h : ∀ f ∈ fns, f.Blind env env') (v : Value) (negated : Bool) (parts : Parts)
    (sawNull : Bool) : inItems v negated parts env sawNull fns = inItems v negated parts env' sawNull fns := by
  induction fns generalizing sawNull with
  | nil => rfl
  | cons f fns ih =>
    have ih := fun sawNull => ih (fun g hg => h g (List.mem_cons_of_mem _ hg)) sawNull
    simp only [inItems, h f List.mem_cons_self parts, ih]

theorem inFn_blind {f : Closure} {fns : List Closure} (hf : f.Blind env env') (h : ∀ g ∈ fns, g.Blind env env')
    (negated : Bool) : (inFn f fns negated).Blind env env' :=
  fun parts => by simp only [inFn, hf parts, inItems_blind h]

theorem likeFn_blind {lib : PyLib} {f g : Closure} (hf : f.Blind env env') (hg : g.Blind env env') (negated : Bool) :
    (likeFn lib f g negated).Blind env env' :=
  fun parts => by simp only [likeFn, hf parts, hg parts]

theorem strictFn_blind {f g : Closure} (hf : f.Blind env env') (hg : g.Blind env env')
    (op : Value → Value → Except PyError Value) : (strictFn op f g).Blind env env' :=
  fun parts => by simp only [strictFn, hf parts, hg parts]

theorem binopFn_blind {f g : Closure} (hf : f.Blind env env') (hg : g.Blind env env') (op : BinaryOp) :
    (binopFn op f g).Blind env env' := by
  cases op with
  | and => exact fun parts => by simp only [binopFn, andFn, hf parts, hg parts]
  | or => exact fun parts => by simp only [binopFn, orFn, hf parts, hg parts]
  | _ => exact strictFn_blind hf hg _

variable {lib : PyLib} {scope : Scope} {labels : List (String × Nat)} {allowAgg : Bool}

theorem compileColumn_blind {name : String} {table : Option String} {f : Closure} (h : AgreeOn (labels.map Prod.snd) env env')
    (hf : compileColumn scope labels allowAgg name table = .ok f) : f.Blind env env' := by
  rw [compileColumn] at hf
  split at hf
  · cases hf
    exact fun _ => rfl
  · split at hf
    · rename_i id hl _
      cases hf
      obtain ⟨before, after, rfl, -⟩ := List.lookup_eq_some_iff.1 hl
      exact readAgg_blind (h id (by simp))
    · cases hf

mutual

/-- A compiled expression reads its aggregates and the labelled ones. -/
theorem compileExpr_blind (h : AgreeOn (labels.map Prod.snd) env env') : (e : Expr) → {f : Closure} →
    AgreeOn ((aggregates e).map AggCall.id) env env' → compileExpr lib scope labels allowAgg e = .ok f → f.Blind env env'
  | .literal v, f, _, hf => by
    cases hf
    exact fun _ => rfl
  | .column name table, f, _, hf => compileColumn_blind h hf
  | .func id _ _ _ _, f, he, hf => by
    cases hf
    exact readAgg_blind (he id (by simp [aggregates]))
  | .isNull e negated, f, he, hf => by
    obtain ⟨g, hg, hf⟩ := do_eq_ok.1 hf
    cases hf
    exact isNullFn_blind (compileExpr_blind h e (by simpa [aggregates] using he) hg) negated
  | .between e lo hi negated, f, he, hf => by
    obtain ⟨g, hg, hf⟩ := do_eq_ok.1 hf
    obtain ⟨glo, hglo, hf⟩ := do_eq_ok.1 hf
    obtain ⟨ghi, hghi, hf⟩ := do_eq_ok.1 hf
    cases hf
    rw [aggregates, List.map_append, List.map_append] at he
    exact betweenFn_blind (compileExpr_blind h e (he.mono (by simp +contextual)) hg)
      (compileExpr_blind h lo (he.mono (by simp +contextual)) hglo)
      (compileExpr_blind h hi (he.mono (by simp +contextual)) hghi) negated
  | .inList e items negated, f, he, hf => by
    obtain ⟨g, hg, hf⟩ := do_eq_ok.1 hf
    obtain ⟨gs, hgs, hf⟩ := do_eq_ok.1 hf
    cases hf
    rw [aggregates, List.map_append] at he
    exact inFn_blind (compileExpr_blind h e (he.mono (by simp +contextual)) hg)
      (compileExprs_blind h items (he.mono (by simp +contextual)) hgs) negated
  | .like e pat negated, f, he, hf => by
    obtain ⟨g, hg, hf⟩ := do_eq_ok.1 hf
    obtain ⟨gp, hgp, hf⟩ := do_eq_ok.1 hf
    cases hf
    rw [aggregates, List.map_append] at he
    exact likeFn_blind (compileExpr_blind h e (he.mono (by simp +contextual)) hg)
      (compileExpr_blind h pat (he.mono (by simp +contextual)) hgp) negated
  | .unary .not e, f, he, hf => by
    obtain ⟨g, hg, hf⟩ := do_eq_ok.1 hf
    cases hf
    have hb := compileExpr_blind h e (by simpa [aggregates] using he) hg
    exact fun parts => by simp only [notFn, hb parts]
  | .unary .neg e, f, he, hf => by
    obtain ⟨g, hg, hf⟩ := do_eq_ok.1 hf
    cases hf
    have hb := compileExpr_blind h e (by simpa [aggregates] using he) hg
    exact fun parts => by simp only [negFn, hb parts]
  | .binop op l r, f, he, hf => by
    obtain ⟨gl, hgl, hf⟩ := do_eq_ok.1 hf
    obtain ⟨gr, hgr, hf⟩ := do_eq_ok.1 hf
    cases hf
    rw [aggregates, List.map_append] at he
    exact binopFn_blind (compileExpr_blind h l (he.mono (by simp +contextual)) hgl)
      (compileExpr_blind h r (he.mono (by simp +contextual)) hgr) op

theorem compileExprs_blind (h : AgreeOn (labels.map Prod.snd) env env') : (es : List Expr) → {fs : List Closure} →
    AgreeOn ((aggregatesOfItems es).map AggCall.id) env env' → compileExprs lib scope labels allowAgg es = .ok fs →
    ∀ f ∈ fs, f.Blind env env'
  | [], fs, _, hf => by
    cases hf
    simp
  | e :: es, fs, he, hf => by
    obtain ⟨f, hf', hf⟩ := do_eq_ok.1 hf
    obtain ⟨gs, hgs, hf⟩ := do_eq_ok.1 hf
    cases hf
    rw [aggregatesOfItems, List.map_append] at he
    exact List.forall_mem_cons.2 ⟨compileExpr_blind h e (he.mono (by simp +contextual)) hf',
      compileExprs_blind h es (he.mono (by simp +contextual)) hgs⟩

end

end Reads

/-! ### The statement -/

namespace SelectItem

/-- The expression of an item that is not a star. -/
def exprs : SelectItem → List Expr
  | star => []
  | expr e _ => [e]

theorem flatMap_exprs (i : SelectItem) : i.exprs.flatMap LeafDb.funcNodes = i.funcNodes := by
  cases i <;> simp [exprs, funcNodes]

theorem any_exprs (i : SelectItem) : (i.exprs.any fun e => !(LeafDb.funcNodes e).isEmpty) = !i.funcNodes.isEmpty := by
  cases i <;> simp [exprs, funcNodes]

end SelectItem

namespace SelectStmt

/-- The expressions `_aggregate` looks through: select list, HAVING and ORDER BY. -/
def aggExprs (sel : SelectStmt) : List Expr :=
  sel.items.flatMap SelectItem.exprs ++ sel.having?.toList ++ sel.orderBy.map OrderItem.expr

theorem aggCalls_eq (sel : SelectStmt) :
    sel.aggCalls = (sel.aggExprs.flatMap funcNodes).pwFilter fun a b => a.id ≠ b.id := by
  rw [aggCalls, aggExprs, List.flatMap_append, List.flatMap_append, List.flatMap_map, List.flatMap_assoc]
  simp only [SelectItem.flatMap_exprs]
  cases sel.having? <;> simp

theorem walkInItems_eq (sel : SelectStmt) : sel.walkInItems = sel.aggExprs.any fun e => !(funcNodes e).isEmpty := by
  rw [walkInItems, aggExprs, List.any_append, List.any_append, List.any_map, List.any_flatMap]
  simp only [SelectItem.any_exprs]
  cases sel.having? <;> simp [Function.comp_def]

/-- No node is in the statement twice: each call of the parser makes a node of its own. -/
def NodesDistinct (sel : SelectStmt) : Prop := ((sel.aggExprs.flatMap aggregates).map AggCall.id).Nodup

theorem mem_aggCalls {sel : SelectStmt} (h : sel.NodesDistinct) {e : Expr} (he : e ∈ sel.aggExprs) {a : AggCall}
    (ha : a ∈ funcNodes e) : a ∈ sel.aggCalls := by
  have hsub : (sel.aggExprs.flatMap funcNodes).Sublist (sel.aggExprs.flatMap aggregates) := by
    induction sel.aggExprs with
    | nil => exact .slnil
    | cons e es ih =>
      rw [List.flatMap_cons, List.flatMap_cons]
      exact (funcNodes_sublist e).append ih
  have hpw : (sel.aggExprs.flatMap funcNodes).Pairwise fun a b => a.id ≠ b.id := (List.pairwise_map.1 h).sublist hsub
  rw [aggCalls_eq, List.pwFilter_eq_self.2 hpw]
  exact List.mem_flatMap.2 ⟨e, he, ha⟩

/-- A label stands for an aggregate call of the select list. -/
theorem mem_foldl {α β : Type} {P : β → α → Prop} {f : List α → β → List α} {l : α}
    (hf : ∀ known i, l ∈ f known i → l ∈ known ∨ P i l) (items : List β) (known : List α) (h : l ∈ items.foldl f known) :
    l ∈ known ∨ ∃ i ∈ items, P i l := by
  induction items generalizing known with
  | nil => exact .inl h
  | cons i items ih =>
    rcases ih _ h with h | ⟨i', hi', h⟩
    · exact (hf known i h).imp_right fun h => ⟨i, List.mem_cons_self, h⟩
    · exact .inr ⟨i', List.mem_cons_of_mem _ hi', h⟩

theorem mem_aggAliases {sel : SelectStmt} {l : String × Nat} (hl : l ∈ sel.aggAliases) :
    ∃ e ∈ sel.aggExprs, ∃ a ∈ funcNodes e, a.id = l.2 := by
  obtain hl | ⟨i, hi, e, he, a, ha⟩ : l ∈ ([] : List (String × Nat)) ∨
      ∃ i ∈ sel.items, ∃ e ∈ i.exprs, ∃ a ∈ funcNodes e, a.id = l.2 := by
    refine mem_foldl (P := fun i l => ∃ e ∈ SelectItem.exprs i, ∃ a ∈ funcNodes e, a.id = l.2) (fun known i h => ?_) _ _ hl
    split at h
    · rename_i id name arg star distinct label
      split at h
      · exact .inl h
      · rcases List.mem_cons.1 h with rfl | h
        · exact .inr ⟨_, List.mem_singleton_self _, _, List.mem_singleton_self _, rfl⟩
        · exact .inl h
    · exact .inl h
  · cases hl
  · exact ⟨e, by simp only [aggExprs, List.mem_append, List.mem_flatMap]; exact .inl (.inl ⟨i, hi, he⟩), a, ha⟩

end SelectStmt

/-! ### The environment of a group -/

section Env

variable {lib : PyLib} {sel : SelectStmt} {scope : Scope} {aggs : List CompiledAgg} {members : List Parts} {env : AggEnv}

/-- The environment holds the value of each compiled aggregate. -/
theorem aggEnv_read (hnd : (aggs.map CompiledAgg.id).Nodup) (h : aggEnv aggs members = .ok env) {c : CompiledAgg}
    (hc : c ∈ aggs) : ∃ v, c.value members = .ok v ∧ env.bind (· c.id) = some v := by
  obtain ⟨values, hvalues, h⟩ := do_eq_ok.1 h
  cases h
  rw [mapM_eq_ok] at hvalues
  clear h
  induction hvalues with
  | nil => simp at hc
  | @cons a p aggs values hp _ ih =>
    obtain ⟨v, hv, hp⟩ := do_eq_ok.1 hp
    cases hp
    rw [List.map_cons, List.nodup_cons] at hnd
    rcases List.mem_cons.1 hc with rfl | hc
    · exact ⟨v, hv, by simp [List.lookup_cons]⟩
    · obtain ⟨w, hw, hlook⟩ := ih hnd.2 hc
      have hne : c.id ≠ a.id := fun he => hnd.1 (he ▸ List.mem_map_of_mem hc)
      refine ⟨w, hw, ?_⟩
      simp only [Option.bind_some, List.lookup_cons, beq_false_of_ne hne] at hlook ⊢
      exact hlook

/-- The environment with a value for every aggregate it does not hold. -/
def AggEnv.complete (env : AggEnv) (other : Nat → Value) : AggEnv := some fun id => some ((env.bind (· id)).getD (other id))

theorem AggEnv.complete_of_some {id : Nat} {v : Value} (h : env.bind (· id) = some v) (other : Nat → Value) :
    env.bind (· id) = (env.complete other).bind (· id) := by
  simp [AggEnv.complete, h]

/-- Each node that is collected is compiled and has its value in the environment of every group. -/
theorem funcNodes_inEnv (hsel : sel.NodesDistinct) (haggs : sel.aggCalls.mapM (compileAgg lib scope) = .ok aggs)
    (henv : aggEnv aggs members = .ok env) {e : Expr} (he : e ∈ sel.aggExprs) {a : AggCall} (ha : a ∈ funcNodes e) :
    ∃ c v, compileAgg lib scope a = .ok c ∧ c.value members = .ok v ∧ env.bind (· a.id) = some v := by
  obtain ⟨j, hj⟩ := List.mem_iff_getElem?.1 (SelectStmt.mem_aggCalls hsel he ha)
  obtain ⟨c, hc, hac⟩ := forall₂_getElem? (mapM_eq_ok.1 haggs) hj
  obtain ⟨v, hv, hlook⟩ := aggEnv_read (aggIds_nodup haggs) henv (List.mem_of_getElem? hc)
  exact ⟨c, v, hac, hv, compileAgg_id hac ▸ hlook⟩

end Env

/-! ### All aggregates are found -/

/-- Every aggregate in the select list, HAVING or ORDER BY is found and computed. -/
structure AggregatesFound (sel : SelectStmt) : Prop where
  collected : ∀ e ∈ sel.aggExprs, ∀ a ∈ aggregates e, a ∈ funcNodes e
  /-- The environment of every group holds the value of each. -/
  inEnv : ∀ (lib : PyLib) (scope : Scope) (aggs : List CompiledAgg) (members : List Parts) (env : AggEnv),
    sel.aggCalls.mapM (compileAgg lib scope) = .ok aggs → aggEnv aggs members = .ok env →
    ∀ e ∈ sel.aggExprs, ∀ a ∈ aggregates e,
      ∃ c v, compileAgg lib scope a = .ok c ∧ c.value members = .ok v ∧ ∀ parts, readAgg a.id parts env = .ok v
  /-- Evaluating an expression, also with the labels of the select list, never asks for another aggregate. -/
  noneMissing : ∀ (lib : PyLib) (scope : Scope) (aggs : List CompiledAgg) (members : List Parts) (env : AggEnv),
    sel.aggCalls.mapM (compileAgg lib scope) = .ok aggs → aggEnv aggs members = .ok env →
    ∀ e ∈ sel.aggExprs, ∀ (labels : List (String × Nat)) (allowAgg : Bool) (f : Closure), (∀ l ∈ labels, l ∈ sel.aggAliases) →
      compileExpr lib scope labels allowAgg e = .ok f → ∀ other, f.Blind env (env.complete other)
  grouped : (∃ e ∈ sel.aggExprs, aggregates e ≠ []) → sel.grouped = true

/-- All aggregates are found exactly if none stands below BETWEEN, IN or LIKE. -/
theorem aggregatesFound_iff {sel : SelectStmt} (hsel : sel.NodesDistinct) :
    AggregatesFound sel ↔ ∀ e ∈ sel.aggExprs, AggregatesVisible e := by
  constructor
  · intro h e he
    have hnd : (aggregates e).Nodup := (List.nodup_flatMap.1 (List.Nodup.of_map AggCall.id hsel)).1 e he
    have hlen : (aggregates e).length ≤ (funcNodes e).length := (hnd.subperm (h.collected e he)).length_le
    exact (funcNodes_eq_iff e).1 ((funcNodes_sublist e).eq_of_length_le hlen)
  · intro h
    have hall : ∀ e ∈ sel.aggExprs, funcNodes e = aggregates e := fun e he => (funcNodes_eq_iff e).2 (h e he)
    refine ⟨fun e he a ha => (hall e he).symm ▸ ha, fun lib scope aggs members env haggs henv e he a ha => ?_,
      fun lib scope aggs members env haggs henv e he labels allowAgg f hl hf other => ?_, ?_⟩
    · obtain ⟨c, v, hc, hv, hread⟩ := funcNodes_inEnv hsel haggs henv he ((hall e he).symm ▸ ha)
      exact ⟨c, v, hc, hv, fun parts => by rw [readAgg, hread]⟩
    · have hread {e : Expr} (he : e ∈ sel.aggExprs) {a : AggCall} (ha : a ∈ funcNodes e) :
          env.bind (· a.id) = (env.complete other).bind (· a.id) := by
        obtain ⟨-, v, -, -, hread⟩ := funcNodes_inEnv hsel haggs henv he ha
        exact AggEnv.complete_of_some hread other
      refine compileExpr_blind (fun id hid => ?_) e (fun id hid => ?_) hf
      · obtain ⟨l, hlm, rfl⟩ := List.mem_map.1 hid
        obtain ⟨e', he', a, ha, hid⟩ := SelectStmt.mem_aggAliases (hl l hlm)
        exact hid ▸ hread he' ha
      · obtain ⟨a, ha, rfl⟩ := List.mem_map.1 hid
        exact hread he ((hall e he).symm ▸ ha)
    · rintro ⟨e, he, hne⟩
      rw [SelectStmt.grouped, SelectStmt.walkInItems_eq, Bool.or_eq_true]
      refine .inr (List.any_eq_true.2 ⟨e, he, ?_⟩)
      rw [hall e he]
      simpa using hne

/-- `SELECT COUNT(*) FROM t HAVING NOT SUM(v) > 3`. -/
theorem aggregatesFound_iff_not :
    let items := [.expr (.func 0 "COUNT" none true false) "n"]
    let having := Expr.unary .not (.binop .gt (.func 1 "SUM" (some (.column "v" none)) false false) (.literal (.int 3)))
    AggregatesFound ⟨⟨"t", none, [], none⟩, false, items, [], some having, [], none, none⟩ :=
  (aggregatesFound_iff (by simp [SelectStmt.NodesDistinct, SelectStmt.aggExprs, SelectItem.exprs, aggregates])).2
    (by simp [SelectStmt.aggExprs, SelectItem.exprs, AggregatesVisible])

/-- `SELECT k FROM t GROUP BY k HAVING COUNT(*) BETWEEN 1 AND 2` raises on a row, and `SELECT COUNT(*) IN (1) FROM t`
is not grouped. -/
theorem not_aggregatesFound :
    let m : TableMeta := ⟨"t", [⟨"k", .int, false⟩], 1, 1, 2, []⟩
    let count := Expr.func 0 "COUNT" none true false
    let having := Expr.between count (.literal (.int 1)) (.literal (.int 2)) false
    let sel : SelectStmt :=
      ⟨⟨"t", none, [], none⟩, false, [.expr (.column "k" none) "k"], [.column "k" none], some having, [], none, none⟩
    let sel' : SelectStmt :=
      ⟨⟨"t", none, [], none⟩, false, [.expr (.inList count [.literal (.int 1)] false) "n"], [], none, [], none, none⟩
    ¬ AggregatesFound sel ∧
      aggregate ⟨fun _ => "", fun _ _ => false⟩ sel ⟨[("t", m)], []⟩ [[some [.int 5]]] = .error .executionError ∧
      ¬ AggregatesFound sel' ∧ sel'.grouped = false := by
  intro m count having sel sel'
  refine ⟨fun h => ?_, rfl, fun h => ?_, rfl⟩
  · have := h.collected having (by simp [sel, SelectStmt.aggExprs, SelectItem.exprs]) ⟨0, "COUNT", none, true, false⟩
      (by simp [having, count, aggregates])
    simp [having, funcNodes] at this
  · have := h.grouped ⟨_, List.mem_cons_self, by simp [count, aggregates]⟩
    cases this

end LeafDb
