import LeafDb.Sql.FilterStage

/-!
# The staged run of a SELECT

If every conjunct can be compiled at its stage and no RIGHT or FULL join comes after a filter, `run_select` returns the rows
that filtering after all joins gives (`runPlan_perm_reference`). It evaluates a conjunct on contexts the later joins may
drop, so none may raise there either.
-/

namespace LeafDb

variable {lib : PyLib}

/-! ### Compiling at a stage -/

section Compiles

variable {srcs : List (String × TableMeta)} {n : Nat}

mutual

/-- What can be compiled among all tables can be among the first ones, if its columns are theirs. -/
theorem compileExpr_take : ∀ (e : Expr) (g : Closure), compileExpr lib ⟨srcs, []⟩ [] false e = .ok g →
    (∀ col ∈ columns e, ∀ loc, Scope.resolve ⟨srcs, []⟩ col.1 col.2 = .ok loc → loc.1 < n) →
    ∃ f, compileExpr lib ⟨srcs.take n, []⟩ [] false e = .ok f
  | .literal _, _, _, _ => ⟨_, rfl⟩
  | .column name table, g, hg, h => by
    rw [compileExpr, compileColumn] at hg
    rcases hloc : Scope.resolve ⟨srcs, []⟩ name table with e | loc
    · simp [hloc] at hg
    · have htake := resolve_take hloc (h (name, table) (List.mem_singleton_self _) loc hloc)
      exact ⟨readCol loc.1 loc.2, by rw [compileExpr, compileColumn, htake]⟩
  | .func id _ _ _ _, _, _, _ => ⟨readAgg id, rfl⟩
  | .isNull e negated, g, hg, h => by
    rw [compileExpr] at hg ⊢
    obtain ⟨g₁, h₁, -⟩ := do_eq_ok.1 hg
    exact exists_do (compileExpr_take e g₁ h₁ h) fun _ _ => ⟨_, rfl⟩
  | .between e lo hi negated, g, hg, h => by
    rw [compileExpr] at hg ⊢
    obtain ⟨g₁, h₁, hg⟩ := do_eq_ok.1 hg
    obtain ⟨g₂, h₂, hg⟩ := do_eq_ok.1 hg
    obtain ⟨g₃, h₃, -⟩ := do_eq_ok.1 hg
    refine exists_do (compileExpr_take e g₁ h₁ ?_) fun _ _ => exists_do (compileExpr_take lo g₂ h₂ ?_) fun _ _ =>
      exists_do (compileExpr_take hi g₃ h₃ ?_) fun _ _ => ⟨_, rfl⟩
    all_goals exact fun col hc => h col (by simp [columns, hc])
  | .inList e items negated, g, hg, h => by
    rw [compileExpr] at hg ⊢
    obtain ⟨g₁, h₁, hg⟩ := do_eq_ok.1 hg
    obtain ⟨gs, hs, -⟩ := do_eq_ok.1 hg
    refine exists_do (compileExpr_take e g₁ h₁ ?_) fun _ _ => exists_do (compileExprs_take items gs hs ?_) fun _ _ => ⟨_, rfl⟩
    all_goals exact fun col hc => h col (by simp [columns, hc])
  | .like e pat negated, g, hg, h => by
    rw [compileExpr] at hg ⊢
    obtain ⟨g₁, h₁, hg⟩ := do_eq_ok.1 hg
    obtain ⟨g₂, h₂, -⟩ := do_eq_ok.1 hg
    refine exists_do (compileExpr_take e g₁ h₁ ?_) fun _ _ => exists_do (compileExpr_take pat g₂ h₂ ?_) fun _ _ => ⟨_, rfl⟩
    all_goals exact fun col hc => h col (by simp [columns, hc])
  | .unary op e, g, hg, h => by
    rcases op with _ | _
    all_goals
      rw [compileExpr] at hg ⊢
      obtain ⟨g₁, h₁, -⟩ := do_eq_ok.1 hg
      exact exists_do (compileExpr_take e g₁ h₁ h) fun _ _ => ⟨_, rfl⟩
  | .binop op l r, g, hg, h => by
    rw [compileExpr] at hg ⊢
    obtain ⟨g₁, h₁, hg⟩ := do_eq_ok.1 hg
    obtain ⟨g₂, h₂, -⟩ := do_eq_ok.1 hg
    refine exists_do (compileExpr_take l g₁ h₁ ?_) fun _ _ => exists_do (compileExpr_take r g₂ h₂ ?_) fun _ _ => ⟨_, rfl⟩
    all_goals exact fun col hc => h col (by simp [columns, hc])

theorem compileExprs_take : ∀ (es : List Expr) (gs : List Closure), compileExprs lib ⟨srcs, []⟩ [] false es = .ok gs →
    (∀ col ∈ columnsOfItems es, ∀ loc, Scope.resolve ⟨srcs, []⟩ col.1 col.2 = .ok loc → loc.1 < n) →
    ∃ fs, compileExprs lib ⟨srcs.take n, []⟩ [] false es = .ok fs
  | [], _, _, _ => ⟨[], rfl⟩
  | e :: es, gs, hg, h => by
    rw [compileExprs] at hg ⊢
    obtain ⟨g₁, h₁, hg⟩ := do_eq_ok.1 hg
    obtain ⟨gs₁, hs, -⟩ := do_eq_ok.1 hg
    refine exists_do (compileExpr_take e g₁ h₁ ?_) fun _ _ => exists_do (compileExprs_take es gs₁ hs ?_) fun _ _ => ⟨_, rfl⟩
    all_goals exact fun col hc => h col (by simp [columnsOfItems, hc])

end

end Compiles

section Stage

variable {p : Plan} {conj : Expr} {s : Nat}

/-- A conjunct with a gathered column that does not resolve waits for the last stage. -/
theorem filterStage_of_unresolved (hnd : (p.sources.map Prod.fst).Nodup) (h : ¬∀ col ∈ gather conj, Resolves p.sources col) :
    filterStage p.avail conj = p.joins.length := by
  unfold filterStage
  rw [avail_getLast? hnd]
  have hnot : ¬(walkFuncNodes conj = [] ∧ (conjunctTables conj p.sources).isSome = true) := fun hc =>
    h ((conjunctTables_isSome hc.1).1 hc.2)
  simp only [if_neg hnot, length_avail, Nat.add_sub_cancel]

/-- A conjunct that can be compiled after all joins can be at its stage, if the stage sees its columns. -/
theorem StageSees.compiles {db : Tables} {sel : SelectCore} (h : StageSees ⟨p.sources, []⟩ conj)
    (hplan : buildSelectPlan db sel = .ok p) (hnd : (p.sources.map Prod.fst).Nodup) (hmem : (s, conj) ∈ p.filters)
    {g : Closure} (hg : compileExpr lib ⟨p.sources, []⟩ [] false conj = .ok g) :
    ∃ f, compileExpr lib ⟨p.sources.take (s + 1), []⟩ [] false conj = .ok f := by
  have hlast : p.sources.take (p.joins.length + 1) = p.sources := by rw [← p.length_sources, List.take_length]
  obtain rfl := stage_of_mem hplan hmem
  by_cases hfuncs : walkFuncNodes conj = []
  · by_cases hres : ∀ col ∈ gather conj, Resolves p.sources col
    · refine compileExpr_take conj g hg fun col hcol loc hloc => ?_
      rw [Nat.lt_succ_iff, le_stage_iff hnd hfuncs hres]
      rcases (h.resolve_left (not_not.2 hfuncs)) col hcol loc hloc with hzero | ⟨col', hcol', ⟨slot', j'⟩, hloc', hle⟩
      · exact .inl hzero
      · exact .inr ⟨col', hcol', slot', ⟨j', hloc'⟩, hle⟩
    · rw [filterStage_of_unresolved hnd hres, hlast]
      exact ⟨g, hg⟩
  · rw [filterStage_of_funcs hfuncs, length_avail, Nat.add_sub_cancel, hlast]
    exact ⟨g, hg⟩

end Stage

/-! ### The scopes of the joins -/

section Scopes

variable {p : Plan}

theorem joinAll_scope {scope scope' : Scope} {rest : List JoinPlan} {contexts out : List Parts}
    (h : joinAll lib scope rest contexts = .ok (scope', out)) :
    (rest.map fun j => (j.label, j.table.tmeta)).foldlM (fun scope e => scope.add e.1 e.2) scope = .ok scope' := by
  induction rest generalizing scope contexts with
  | nil =>
    cases h
    rfl
  | cons j rest ih =>
    obtain ⟨next, hadd, h⟩ := do_eq_ok.1 h
    obtain ⟨joined, -, h⟩ := do_eq_ok.1 h
    rw [List.map_cons, List.foldlM_cons, hadd]
    exact ih h

/-- The contexts of the base table. -/
def Plan.baseContexts (p : Plan) : List Parts := p.base.rows.map fun r => [some r.2]

/-- The joins return in the scope of their tables. -/
theorem joinAll_take {k : Nat} {scope : Scope} {out : List Parts}
    (h : joinAll lib ⟨[(p.label, p.base.tmeta)], []⟩ (p.joins.take k) p.baseContexts = .ok (scope, out)) :
    scope = ⟨p.sources.take (k + 1), []⟩ ∧ ((p.sources.take (k + 1)).map Prod.fst).Nodup := by
  have hnd : ([(p.label, p.base.tmeta)].map Prod.fst).Nodup := List.nodup_singleton _
  have hscope := (addAll_eq_ok hnd).1 (joinAll_scope h)
  rw [List.map_take] at hscope
  exact hscope

end Scopes

/-! ### The two runs -/

/-- No conjunct that can be compiled among the first tables raises on a context of their joins. -/
def Plan.Quiet (lib : PyLib) (p : Plan) (conjuncts : List Expr) : Prop :=
  ∀ k scope contexts, joinAll lib ⟨[(p.label, p.base.tmeta)], []⟩ (p.joins.take k) p.baseContexts = .ok (scope, contexts) →
    ∀ c ∈ conjuncts, ∀ fn, compileExpr lib scope [] false c = .ok fn → ∀ parts ∈ contexts, ∃ v, fn parts none = .ok v

section Runs

variable {db : Tables} {sel : SelectCore} {p : Plan}

/-- What the reference run says of the tables and the conjuncts. -/
theorem reference_ok {sc : Scope} {ref : List Parts} (href : referenceContexts lib p sel.conjuncts = .ok (sc, ref)) :
    ∃ joined, joinAll lib ⟨[(p.label, p.base.tmeta)], []⟩ p.joins p.baseContexts = .ok (sc, joined) ∧ sc = ⟨p.sources, []⟩ ∧
      (p.sources.map Prod.fst).Nodup ∧ ref = (joined.filter fun l => sel.conjuncts.all fun c => holdsAt lib sc c l) ∧
      ∀ c ∈ sel.conjuncts, ∃ g, compileExpr lib sc [] false c = .ok g := by
  obtain ⟨sc₁, hadd, href⟩ := do_eq_ok.1 href
  obtain ⟨⟨sc₂, joined⟩, hjoin, href⟩ := do_eq_ok.1 href
  obtain ⟨final, hfinal, href⟩ := do_eq_ok.1 href
  cases href
  have hsc₁ : sc₁ = ⟨[] ++ [(p.label, p.base.tmeta)], []⟩ := add_ok hadd
  subst hsc₁
  obtain ⟨rfl, hcomp⟩ := applyStage_ok hfinal
  have hwhole : joinAll lib ⟨[(p.label, p.base.tmeta)], []⟩ (p.joins.take p.joins.length) p.baseContexts = .ok (sc, joined) := by
    rw [List.take_length]
    exact hjoin
  obtain ⟨hsc, hnd⟩ := joinAll_take hwhole
  rw [← p.length_sources, List.take_length] at hsc hnd
  exact ⟨joined, hjoin, hsc, hnd, rfl, hcomp⟩

/-- At every stage the conjuncts can be compiled and evaluated. -/
theorem stage_evaluates (hp : buildSelectPlan db sel = .ok p) (hnd : (p.sources.map Prod.fst).Nodup)
    (hcomp : ∀ c ∈ sel.conjuncts, ∃ g, compileExpr lib ⟨p.sources, []⟩ [] false c = .ok g) (hquiet : p.Quiet lib sel.conjuncts)
    (hsees : ∀ c ∈ sel.conjuncts, StageSees ⟨p.sources, []⟩ c) (k : Nat) (scope : Scope) (contexts : List Parts)
    (h : joinAll lib ⟨[(p.label, p.base.tmeta)], []⟩ (p.joins.take k) p.baseContexts = .ok (scope, contexts)) (c : Expr)
    (hc : c ∈ p.stage k) :
    ∃ fn, compileExpr lib scope [] false c = .ok fn ∧ ∀ l ∈ contexts, ∃ v, fn l none = .ok v := by
  obtain ⟨f, hf, rfl⟩ := List.mem_map.1 hc
  obtain ⟨hfp, hfk⟩ := List.mem_filter.1 hf
  obtain rfl : f.1 = k := of_decide_eq_true hfk
  have hfc := ((plan_filters hp).1 f hfp).2
  obtain ⟨g, hg⟩ := hcomp f.2 hfc
  obtain ⟨fn, hfn⟩ := (hsees f.2 hfc).compiles hp hnd hfp hg
  rw [← (joinAll_take h).1] at hfn
  exact ⟨fn, hfn, hquiet f.1 scope contexts h f.2 hfc fn hfn⟩

/-- On a full context the filters hold at their stages where the conjuncts hold. -/
theorem passed_full (hp : buildSelectPlan db sel = .ok p) {srcs : List (String × TableMeta)} {l : Parts}
    (hsl : srcs.length = p.joins.length + 1) (hll : l.length = p.joins.length + 1)
    (hfull : ∀ c ∈ sel.conjuncts, ∃ g, compileExpr lib ⟨srcs, []⟩ [] false c = .ok g)
    (hcomp : ∀ f ∈ p.filters, ∃ fn, compileExpr lib ⟨srcs.take (f.1 + 1), []⟩ [] false f.2 = .ok fn) {s : Nat}
    (hs : p.joins.length ≤ s) :
    passed lib p.filters srcs s l = sel.conjuncts.all fun c => holdsAt lib ⟨srcs, []⟩ c l := by
  obtain ⟨hfilters, hconj, -⟩ := plan_filters hp
  -- every conjunct has at its stage the value it has on the full context
  have hsame : ∀ f ∈ p.filters, holdsAt lib ⟨srcs.take (f.1 + 1), []⟩ f.2 (l.take (f.1 + 1)) =
      holdsAt lib ⟨srcs, []⟩ f.2 l := by
    intro f hf
    obtain ⟨hle, hc⟩ := hfilters f hf
    have hwhole := hfull f.2 hc
    have hsplit : srcs.take (f.1 + 1) ++ srcs.drop (f.1 + 1) = srcs := List.take_append_drop ..
    rw [← hsplit] at hwhole
    have hn : f.1 + 1 ≤ l.length := by omega
    have htake : (srcs.take (f.1 + 1)).length = f.1 + 1 := by
      rw [List.length_take]
      omega
    have e := holdsAt_extend hn htake (hcomp f hf) hwhole
    rwa [hsplit] at e
  rw [Bool.eq_iff_iff, passed_iff, List.all_eq_true]
  constructor
  · intro h c hc
    obtain ⟨f, hf, rfl⟩ := hconj c hc
    rw [← hsame f hf]
    exact h f hf ((hfilters f hf).1.trans hs)
  · intro h f hf _
    rw [hsame f hf]
    exact h f.2 (hfilters f hf).2

end Runs

/-- Filters applied early give the rows that filtering after all joins gives, when every conjunct is staged where its columns
are and no RIGHT or FULL join follows an early filter. -/
theorem runPlan_perm_reference (lib : PyLib) (db : Tables) (sel : SelectCore) (p : Plan)
    (hp : buildSelectPlan db sel = .ok p) (hb : ∀ e ∈ findEquiPredicates sel.conjuncts, ∀ b, e.2 ≠ .bool b)
    {sc : Scope} {ref : List Parts} (href : referenceContexts lib p sel.conjuncts = .ok (sc, ref))
    (hquiet : p.Quiet lib sel.conjuncts) (hsees : ∀ c ∈ sel.conjuncts, StageSees sc c) (hcond : p.NoOuterAfterFilter) :
    ∃ ctxs, runPlan lib p = .ok (sc, ctxs) ∧ ctxs.Perm ref := by
  obtain ⟨A, hAext, hAseq, hscan, hAall⟩ := access_base lib hp hb
  obtain ⟨joined, hjoin, rfl, hnd, rfl, hfull⟩ := reference_ok href
  have heval := stage_evaluates hp hnd hfull hquiet hsees
  have hlen₀ : [(p.label, p.base.tmeta)].length = 0 + 1 := rfl
  have hR₀ : ∀ l ∈ p.baseContexts, l.length = 0 + 1 := by
    intro l hl
    obtain ⟨r, -, rfl⟩ := List.mem_map.1 hl
    rfl
  obtain ⟨kept, hstage⟩ : ∃ kept, applyStage lib ⟨[(p.label, p.base.tmeta)], []⟩ (p.stage 0)
      ((p.access.scan p.base).map fun r => [some r.2]) = .ok kept := by
    refine applyStage_returns fun c hc => ?_
    obtain ⟨fn, hfn, hev⟩ := heval 0 _ _ rfl c hc
    refine ⟨fn, hfn, fun l hl => hev l ?_⟩
    rw [hscan] at hl
    exact List.mem_of_mem_filter hl
  obtain ⟨hkept, hcomp₀⟩ := applyStage_ok hstage
  have hinv : kept.Perm (p.baseContexts.filter fun l => A l && passed lib p.filters [(p.label, p.base.tmeta)] 0 l) := by
    rw [hkept, hscan, List.filter_filter]
    refine .of_eq (List.filter_congr fun l hl => ?_)
    rw [passed_zero rfl (hR₀ l hl), Bool.and_comm]
  obtain ⟨more, ctxs, hsrcs, -, hrun, hperm, hlen, hcomp⟩ := runJoins_perm hAext hlen₀ hjoin
    (fun k scope contexts h _ c hc => heval (k + 1) scope contexts h c (by rwa [Nat.zero_add] at hc)) hinv hR₀ fun k j hj ho => by
      obtain ⟨hseq, hf⟩ := hcond k j hj ho
      exact ⟨hAseq hseq, fun f hfm => by have := hf f hfm; omega⟩
  obtain hsrcs : p.sources = [(p.label, p.base.tmeta)] ++ more := congrArg Scope.sources hsrcs
  rw [← hsrcs] at hperm hcomp
  have hcompile : ∀ f ∈ p.filters, ∃ fn, compileExpr lib ⟨p.sources.take (f.1 + 1), []⟩ [] false f.2 = .ok fn := by
    intro f hf
    rcases Nat.eq_zero_or_pos f.1 with h0 | hpos
    · rw [h0]
      exact hcomp₀ f.2 (List.mem_map.2 ⟨f, List.mem_filter.2 ⟨hf, by simpa using h0⟩, rfl⟩)
    · exact hcomp f hf hpos (by have := ((plan_filters hp).1 f hf).1; omega)
  refine ⟨ctxs, do_eq_ok.2 ⟨_, rfl, do_eq_ok.2 ⟨kept, hstage, hrun⟩⟩, hperm.trans (.of_eq (List.filter_congr fun l hl => ?_))⟩
  have hll : l.length = p.joins.length + 1 := by rw [hlen l hl]; omega
  rw [passed_full hp p.length_sources hll hfull hcompile (by omega)]
  rcases hall : sel.conjuncts.all fun c => holdsAt lib ⟨p.sources, []⟩ c l with _ | _
  · exact Bool.and_false _
  · rw [Bool.and_true]
    exact hAall _ l (List.all_eq_true.1 hall)

/-! `t RIGHT JOIN u ON t.x = u.y WHERE t.x = 2` on one equal pair: filtering `t` first leaves the row of
`u` unmatched, and the join pads it. -/

/-- `FROM t … JOIN u ON t.x = u.y WHERE t.x = v`. -/
def joinOnX (jtype : JoinType) (v : Int) : SelectCore where
  table := "t"
  alias? := none
  joins := [⟨jtype, "u", none, .binop .eq (.column "x" (some "t")) (.column "y" (some "u"))⟩]
  where? := some (.binop .eq (.column "x" (some "t")) (.literal (.int v)))

/-- The plan of `joinOnX`: the conjunct is applied to `t` alone. -/
def joinOnXPlan (t : Table) (jtype : JoinType) (v : Int) : Plan where
  base := t
  label := "t"
  access := .seq
  joins := [⟨jtype, oneRow "u" "y", "u", .binop .eq (.column "x" (some "t")) (.column "y" (some "u")),
    .hashRight ⟨("t", "x"), "y"⟩⟩]
  filters := [(0, .binop .eq (.column "x" (some "t")) (.literal (.int v)))]

theorem joinOnXPlan_eq (jtype : JoinType) (v : Int) :
    buildSelectPlan [oneRow "t" "x", oneRow "u" "y"] (joinOnX jtype v) = .ok (joinOnXPlan (oneRow "t" "x") jtype v) := by
  simp only [buildSelectPlan, joinOnX, get_t, planJoins, get_u]
  rfl

/-- The table `t` with the rows `(1)` and `(2)`. -/
def twoRows : Table where
  tmeta := ⟨"t", [⟨"x", .int, false⟩], 1, 1, 3, []⟩
  rows := [(1, [.int 1]), (2, [.int 2])]
  index := fun _ => none
  colnames_nodup := by simp [TableMeta.colnames]
  ascending := by simp
  width := by simp
  pk_eq := by
    intro i h
    simp [TableMeta.pkIndex] at h
  index_agrees := by simp

theorem joinOnXPlan_eq_two (jtype : JoinType) (v : Int) :
    buildSelectPlan [twoRows, oneRow "u" "y"] (joinOnX jtype v) = .ok (joinOnXPlan twoRows jtype v) := by
  have hlower : "t".toLower = "t" := by decide +kernel
  have hlower' : "u".toLower = "u" := by decide +kernel
  have ht : Tables.get [twoRows, oneRow "u" "y"] "t" = .ok twoRows := by simp [Tables.get, twoRows, hlower]
  have hu : Tables.get [twoRows, oneRow "u" "y"] "u" = .ok (oneRow "u" "y") := by simp [Tables.get, twoRows, oneRow, hlower']
  simp only [buildSelectPlan, joinOnX, ht, planJoins, hu]
  rfl

/-- The condition `t.x = v`. -/
def xEquals (v : Int) : Expr := .binop .eq (.column "x" (some "t")) (.literal (.int v))

/-- `joinOnX` does not raise if the condition evaluates on the rows of `t` and on the joined ones. -/
theorem quiet_joinOnX {t : Table} {jtype : JoinType} {v : Int} {joined : List Parts}
    (hjoin : (joinAll plainLib ⟨[("t", t.tmeta)], []⟩ (joinOnXPlan t jtype v).joins (joinOnXPlan t jtype v).baseContexts).map
      Prod.snd = .ok joined)
    (hbase : ∀ parts ∈ (joinOnXPlan t jtype v).baseContexts, ∃ b,
      (compileExpr plainLib ⟨[("t", t.tmeta)], []⟩ [] false (xEquals v)).bind (fun fn => fn parts none) = .ok b)
    (hjoined : ∀ parts ∈ joined, ∃ b, (compileExpr plainLib ⟨[("t", t.tmeta), ("u", (oneRow "u" "y").tmeta)], []⟩ [] false
      (xEquals v)).bind (fun fn => fn parts none) = .ok b) :
    (joinOnXPlan t jtype v).Quiet plainLib (joinOnX jtype v).conjuncts := by
  intro k scope contexts h c hc fn hfn parts hparts
  obtain rfl : c = xEquals v := List.mem_singleton.1 hc
  obtain ⟨rfl, -⟩ := joinAll_take h
  rcases k with _ | k
  · cases h
    obtain ⟨b, hb⟩ := hbase parts hparts
    obtain ⟨fn', hfn', hb⟩ := bind_eq_ok.1 hb
    cases hfn.symm.trans hfn'
    exact ⟨b, hb⟩
  · have htake : (joinOnXPlan t jtype v).joins.take (k + 1) = (joinOnXPlan t jtype v).joins := List.take_of_length_le (by simp [joinOnXPlan])
    rw [htake] at h
    obtain ⟨⟨_, _⟩, hj, rfl⟩ := map_eq_ok.1 hjoin
    cases h.symm.trans hj
    obtain ⟨b, hb⟩ := hjoined parts hparts
    obtain ⟨fn', hfn', hb⟩ := bind_eq_ok.1 hb
    have hsources : (joinOnXPlan t jtype v).sources.take (k + 1 + 1) = [("t", t.tmeta), ("u", (oneRow "u" "y").tmeta)] :=
      List.take_of_length_le (by simp [Plan.sources, joinOnXPlan])
    rw [hsources] at hfn
    cases hfn.symm.trans hfn'
    exact ⟨b, hb⟩

/-- Both runs of a plan: the contexts with and without pushdown. -/
def bothRuns (p : Plan) (conjuncts : List Expr) : Except PyError (List Parts × List Parts) := do
  return ((← runPlan plainLib p).2, (← referenceContexts plainLib p conjuncts).2)

theorem bothRuns_eq_ok {p : Plan} {conjuncts : List Expr} {ctxs ref : List Parts} (h : bothRuns p conjuncts = .ok (ctxs, ref)) :
    ∃ sc sc', runPlan plainLib p = .ok (sc, ctxs) ∧ referenceContexts plainLib p conjuncts = .ok (sc', ref) := by
  obtain ⟨⟨sc, ctxs'⟩, hrun, h⟩ := do_eq_ok.1 h
  obtain ⟨⟨sc', ref'⟩, href, h⟩ := do_eq_ok.1 h
  cases h
  exact ⟨sc, sc', hrun, href⟩

theorem pushdown_rightJoin :
    ∃ p sc sc' ctxs ref, buildSelectPlan [oneRow "t" "x", oneRow "u" "y"] (joinOnX .right 2) = .ok p ∧
      runPlan plainLib p = .ok (sc, ctxs) ∧ referenceContexts plainLib p (joinOnX .right 2).conjuncts = .ok (sc', ref) ∧
      p.Quiet plainLib (joinOnX .right 2).conjuncts ∧ ¬ ctxs.Perm ref := by
  have h : bothRuns (joinOnXPlan (oneRow "t" "x") .right 2) (joinOnX .right 2).conjuncts =
      .ok ([[none, some [.int 1]]], []) := by decide +kernel
  obtain ⟨sc, sc', hrun, href⟩ := bothRuns_eq_ok h
  refine ⟨_, sc, sc', _, _, joinOnXPlan_eq .right 2, hrun, href, ?_, by simp⟩
  have hjoin : (joinAll plainLib ⟨[("t", (oneRow "t" "x").tmeta)], []⟩ (joinOnXPlan (oneRow "t" "x") .right 2).joins
      (joinOnXPlan (oneRow "t" "x") .right 2).baseContexts).map Prod.snd = .ok [[some [.int 1], some [.int 1]]] := by
    decide +kernel
  refine quiet_joinOnX hjoin ?_ ?_
  · intro parts hparts
    obtain rfl : parts = [some [.int 1]] := List.mem_singleton.1 hparts
    exact ⟨.bool false, by decide +kernel⟩
  · intro parts hparts
    obtain rfl := List.mem_singleton.1 hparts
    exact ⟨.bool false, by decide +kernel⟩

/-- `t LEFT JOIN u ON t.x = u.y WHERE t.x = 2`: the row `(1)` is dropped before the join, and the row `(2)` is padded. -/
theorem runPlan_perm_leftJoin :
    ∃ p sc ctxs ref, buildSelectPlan [twoRows, oneRow "u" "y"] (joinOnX .left 2) = .ok p ∧ runPlan plainLib p = .ok (sc, ctxs) ∧
      referenceContexts plainLib p (joinOnX .left 2).conjuncts = .ok (sc, ref) ∧ ref = [[some [.int 2], none]] ∧ ctxs.Perm ref := by
  have h : bothRuns (joinOnXPlan twoRows .left 2) (joinOnX .left 2).conjuncts =
      .ok ([[some [.int 2], none]], [[some [.int 2], none]]) := by decide +kernel
  obtain ⟨sc, sc', -, href⟩ := bothRuns_eq_ok h
  have hjoin : (joinAll plainLib ⟨[("t", twoRows.tmeta)], []⟩ (joinOnXPlan twoRows .left 2).joins
      (joinOnXPlan twoRows .left 2).baseContexts).map Prod.snd =
        .ok [[some [.int 1], some [.int 1]], [some [.int 2], none]] := by decide +kernel
  obtain ⟨-, -, rfl, -, -, -⟩ := reference_ok href
  have hstaged : ∃ ctxs, runPlan plainLib (joinOnXPlan twoRows .left 2) = .ok (⟨(joinOnXPlan twoRows .left 2).sources, []⟩, ctxs) ∧
      ctxs.Perm [[some [.int 2], none]] := by
    refine runPlan_perm_reference plainLib _ _ _ (joinOnXPlan_eq_two .left 2) ?_ href (quiet_joinOnX hjoin ?_ ?_) ?_ ?_
    · intro e he b
      simp only [SelectCore.conjuncts, joinOnX, flattenAnd, findEquiPredicates, List.filterMap_cons, List.filterMap_nil,
        List.mem_singleton] at he
      rw [he]
      simp
    · intro parts hparts
      rcases List.mem_cons.1 hparts with rfl | hparts
      · exact ⟨.bool false, by decide +kernel⟩
      · obtain rfl := List.mem_singleton.1 hparts
        exact ⟨.bool true, by decide +kernel⟩
    · intro parts hparts
      rcases List.mem_cons.1 hparts with rfl | hparts
      · exact ⟨.bool false, by decide +kernel⟩
      · obtain rfl := List.mem_singleton.1 hparts
        exact ⟨.bool true, by decide +kernel⟩
    · intro c hc
      obtain rfl : c = xEquals 2 := List.mem_singleton.1 hc
      refine .inr fun col hcol loc hloc => .inr ⟨col, ?_, loc, hloc, le_rfl⟩
      exact hcol
    · intro k j hj ho
      rcases k with _ | k
      · cases hj
        rcases ho with ho | ho <;> cases ho
      · cases hj
  obtain ⟨ctxs, hrun, hperm⟩ := hstaged
  exact ⟨_, _, ctxs, _, joinOnXPlan_eq_two .left 2, hrun, href, rfl, hperm⟩

end LeafDb
