import LeafDb.Sql.Pushdown

/-!
# The stages of the WHERE conjuncts (`assign_filter_stages`)

A conjunct is applied as soon as the columns `_conjunct_tables` gathers resolve. A name that resolves among all sources
resolves among the first ones exactly if its table is one of them (`resolves_take`), so the gathered columns are never
too early. But `gather` does not look into the pattern of LIKE, nor `walk_func_nodes` below BETWEEN, IN and LIKE.
-/

namespace LeafDb

/-! ### Columns -/

mutual

/-- Every column of an expression, in any operand position. -/
def columns : Expr → List (String × Option String)
  | .literal _ => []
  | .column name table => [(name, table)]
  | .func _ _ arg _ _ => columnsOfArg arg
  | .isNull e _ => columns e
  | .between e lo hi _ => columns e ++ columns lo ++ columns hi
  | .inList e items _ => columns e ++ columnsOfItems items
  | .like e pat _ => columns e ++ columns pat
  | .unary _ e => columns e
  | .binop _ l r => columns l ++ columns r

def columnsOfArg : Option Expr → List (String × Option String)
  | none => []
  | some e => columns e

def columnsOfItems : List Expr → List (String × Option String)
  | [] => []
  | e :: es => columns e ++ columnsOfItems es

end

theorem append_subset_append {α : Type} {as as' bs bs' : List α} (h : as ⊆ as') (h' : bs ⊆ bs') :
    as ++ bs ⊆ as' ++ bs' :=
  List.append_subset.2 ⟨List.subset_append_of_subset_left _ h, List.subset_append_of_subset_right _ h'⟩

mutual

theorem gather_subset : ∀ e : Expr, gather e ⊆ columns e
  | .literal _ => List.nil_subset _
  | .column _ _ => List.Subset.refl _
  | .func _ _ _ _ _ => List.nil_subset _
  | .isNull e _ => gather_subset e
  | .between e lo hi _ => append_subset_append (append_subset_append (gather_subset e) (gather_subset lo)) (gather_subset hi)
  | .inList e items _ => append_subset_append (gather_subset e) (gatherItems_subset items)
  | .like e _ _ => List.subset_append_of_subset_left _ (gather_subset e)
  | .unary _ e => gather_subset e
  | .binop _ l r => append_subset_append (gather_subset l) (gather_subset r)

theorem gatherItems_subset : ∀ es : List Expr, gatherItems es ⊆ columnsOfItems es
  | [] => List.nil_subset _
  | e :: es => append_subset_append (gather_subset e) (gatherItems_subset es)

end

/-- A column that resolves in the scope of the sources. -/
def Resolves (srcs : List (String × TableMeta)) (col : String × Option String) : Prop :=
  ∃ loc, Scope.resolve ⟨srcs, []⟩ col.1 col.2 = .ok loc

section Compiles

variable {lib : PyLib} {srcs : List (String × TableMeta)}

mutual

/-- Only names keep an expression from being compiled. -/
theorem compileExpr_ok : ∀ e : Expr, (∀ col ∈ columns e, Resolves srcs col) →
    ∃ fn, compileExpr lib ⟨srcs, []⟩ [] false e = .ok fn
  | .literal _, _ => ⟨_, rfl⟩
  | .column name table, h => by
    obtain ⟨loc, hloc⟩ := h (name, table) (List.mem_singleton_self _)
    exact ⟨readCol loc.1 loc.2, by rw [compileExpr, compileColumn, hloc]⟩
  | .func id _ _ _ _, _ => ⟨readAgg id, rfl⟩
  | .isNull e negated, h => by
    obtain ⟨fn, hfn⟩ := compileExpr_ok e h
    exact ⟨isNullFn fn negated, by rw [compileExpr, hfn]; rfl⟩
  | .between e lo hi negated, h => by
    obtain ⟨fn, hfn⟩ := compileExpr_ok e fun col hc => h col (by simp [columns, hc])
    obtain ⟨loFn, hlo⟩ := compileExpr_ok lo fun col hc => h col (by simp [columns, hc])
    obtain ⟨hiFn, hhi⟩ := compileExpr_ok hi fun col hc => h col (by simp [columns, hc])
    exact ⟨betweenFn fn loFn hiFn negated, by rw [compileExpr, hfn, hlo, hhi]; rfl⟩
  | .inList e items negated, h => by
    obtain ⟨fn, hfn⟩ := compileExpr_ok e fun col hc => h col (by simp [columns, hc])
    obtain ⟨fns, hfns⟩ := compileExprs_ok items fun col hc => h col (by simp [columns, hc])
    exact ⟨inFn fn fns negated, by rw [compileExpr, hfn, hfns]; rfl⟩
  | .like e pat negated, h => by
    obtain ⟨fn, hfn⟩ := compileExpr_ok e fun col hc => h col (by simp [columns, hc])
    obtain ⟨patFn, hpat⟩ := compileExpr_ok pat fun col hc => h col (by simp [columns, hc])
    exact ⟨likeFn lib fn patFn negated, by rw [compileExpr, hfn, hpat]; rfl⟩
  | .unary .not e, h => by
    obtain ⟨fn, hfn⟩ := compileExpr_ok e h
    exact ⟨notFn fn, by rw [compileExpr, hfn]; rfl⟩
  | .unary .neg e, h => by
    obtain ⟨fn, hfn⟩ := compileExpr_ok e h
    exact ⟨negFn fn, by rw [compileExpr, hfn]; rfl⟩
  | .binop op l r, h => by
    obtain ⟨lfn, hl⟩ := compileExpr_ok l fun col hc => h col (by simp [columns, hc])
    obtain ⟨rfn, hr⟩ := compileExpr_ok r fun col hc => h col (by simp [columns, hc])
    exact ⟨binopFn op lfn rfn, by rw [compileExpr, hl, hr]; rfl⟩

theorem compileExprs_ok : ∀ es : List Expr, (∀ col ∈ columnsOfItems es, Resolves srcs col) →
    ∃ fns, compileExprs lib ⟨srcs, []⟩ [] false es = .ok fns
  | [], _ => ⟨[], rfl⟩
  | e :: es, h => by
    obtain ⟨fn, hfn⟩ := compileExpr_ok e fun col hc => h col (by simp [columnsOfItems, hc])
    obtain ⟨fns, hfns⟩ := compileExprs_ok es fun col hc => h col (by simp [columnsOfItems, hc])
    exact ⟨fn :: fns, by rw [compileExprs, hfn, hfns]; rfl⟩

end

end Compiles

/-! ### Names among the first sources -/

section Names

variable {srcs : List (String × TableMeta)}

theorem le_of_mem_hits {name : String} {i : Nat} {srcs : List (String × TableMeta)} {hit : Nat × Nat}
    (h : hit ∈ Scope.hits name i srcs) : i ≤ hit.1 := by
  induction srcs generalizing i with
  | nil => cases h
  | cons e srcs ih =>
    obtain ⟨label, m⟩ := e
    rw [Scope.hits] at h
    split at h
    · rcases List.mem_cons.1 h with rfl | h
      · exact le_refl _
      · exact (Nat.le_succ i).trans (ih h)
    · exact (Nat.le_succ i).trans (ih h)

theorem length_take_of_mem_drop {α : Type} {l : List α} {n : Nat} {a : α} (h : a ∈ l.drop n) : (l.take n).length = n := by
  have hlen := List.length_pos_of_mem h
  rw [List.length_drop] at hlen
  rw [List.length_take]
  omega

/-- A name that resolves among all sources to one of the first `n` resolves among these, to the same column. -/
theorem resolve_take {name : String} {table : Option String} {loc : Nat × Nat} {n : Nat}
    (h : Scope.resolve ⟨srcs, []⟩ name table = .ok loc) (hlt : loc.1 < n) :
    Scope.resolve ⟨srcs.take n, []⟩ name table = .ok loc := by
  rcases table with _ | tb
  · unfold Scope.resolve at h ⊢
    simp only at h ⊢
    have hsplit := hits_append name 0 (srcs.take n) (srcs.drop n)
    rw [List.take_append_drop] at hsplit
    split at h
    · rename_i hit he
      cases h
      have hdrop : Scope.hits name (0 + (srcs.take n).length) (srcs.drop n) = [] := by
        refine List.eq_nil_iff_forall_not_mem.2 fun hit hmem => ?_
        have hall : hit ∈ Scope.hits name 0 srcs := by
          rw [hsplit]
          exact List.mem_append_right _ hmem
        rw [he] at hall
        obtain rfl := List.mem_singleton.1 hall
        have hle := le_of_mem_hits hmem
        rcases hd : srcs.drop n with _ | ⟨e, rest⟩
        · rw [hd] at hmem
          cases hmem
        · rw [length_take_of_mem_drop (hd ▸ List.mem_cons_self : e ∈ srcs.drop n)] at hle
          omega
      rw [hdrop, List.append_nil, he] at hsplit
      rw [← hsplit]
    · cases h
  · unfold Scope.resolve at h ⊢
    simp only at h ⊢
    have hsplit : srcs.findIdx? (·.1 = tb) =
        ((srcs.take n).findIdx? (·.1 = tb)).or
          (((srcs.drop n).findIdx? (·.1 = tb)).map (· + (srcs.take n).length)) := by
      conv_lhs => rw [← List.take_append_drop n srcs]
      exact List.findIdx?_append
    rcases hi : srcs.findIdx? (·.1 = tb) with _ | i
    · rw [hi] at h
      cases h
    · rw [hi] at h hsplit
      simp only at h
      have hloc : loc.1 = i := by
        split at h
        · cases h
          rfl
        · cases h
      have htake : (srcs.take n).findIdx? (·.1 = tb) = some i := by
        rcases htake : (srcs.take n).findIdx? (·.1 = tb) with _ | i'
        · rw [htake, Option.none_or, eq_comm, Option.map_eq_some_iff] at hsplit
          obtain ⟨k, hk, heq⟩ := hsplit
          have hlen := (List.findIdx?_eq_some_iff_getElem.1 hk).1
          rw [length_take_of_mem_drop (List.getElem_mem hlen)] at heq
          omega
        · rw [htake, Option.some_or] at hsplit
          exact htake.trans hsplit.symm
      rw [htake]
      simp only [List.getElem?_take_of_lt (hloc ▸ hlt)]
      exact h

theorem resolves_take {name : String} {table : Option String} {loc : Nat × Nat} {n : Nat}
    (h : Scope.resolve ⟨srcs, []⟩ name table = .ok loc) : Resolves (srcs.take n) (name, table) ↔ loc.1 < n := by
  constructor
  · rintro ⟨loc', h'⟩
    have hall : Scope.resolve ⟨srcs.take n ++ srcs.drop n, []⟩ name table = .ok loc := by rwa [List.take_append_drop]
    obtain ⟨rfl, hlt⟩ := resolve_extend h' hall
    exact hlt.trans_le (List.length_take_le _ _)
  · intro hlt
    exact ⟨loc, resolve_take h hlt⟩

theorem idxOf?_cases (name : String) (names : List String) :
    (∃ j, names.idxOf? name = some j ∧ name ∈ names) ∨ (names.idxOf? name = none ∧ name ∉ names) := by
  by_cases h : name ∈ names
  · cases hidx : names.idxOf? name with
    | none => exact absurd h (List.idxOf?_eq_none_iff.1 hidx)
    | some j => exact .inl ⟨j, rfl, h⟩
  · exact .inr ⟨List.idxOf?_eq_none_iff.2 h, h⟩

theorem length_hits (name : String) (i : Nat) (srcs : List (String × TableMeta)) :
    (Scope.hits name i srcs).length = (srcs.filter fun e => decide (name ∈ e.2.colnames)).length := by
  induction srcs generalizing i with
  | nil => rfl
  | cons e srcs ih =>
    obtain ⟨label, m⟩ := e
    rw [Scope.hits, List.filter_cons]
    rcases idxOf?_cases name m.colnames with ⟨j, hj, hmem⟩ | ⟨hj, hmem⟩
    · simp only [hj, hmem, decide_true, if_true, List.length_cons, ih (i + 1)]
    · simp only [hj, hmem, decide_false, Bool.false_eq_true, if_false]
      exact ih (i + 1)

theorem lookup_eq_findIdx (srcs : List (String × TableMeta)) (tb : String) :
    srcs.lookup tb = (srcs.findIdx? (·.1 = tb)).bind fun i => srcs[i]?.map Prod.snd := by
  induction srcs with
  | nil => rfl
  | cons e srcs ih =>
    obtain ⟨label, m⟩ := e
    rw [List.lookup_cons, List.findIdx?_cons]
    by_cases h : label = tb
    · subst h
      simp
    · have h' : (tb == label) = false := by simp [Ne.symm h]
      rw [h', ih]
      simp only [h, decide_false, Bool.false_eq_true, if_false]
      cases List.findIdx? (fun x => decide (x.1 = tb)) srcs <;> rfl

/-- `_conjunct_tables` and the scope resolve the same columns. -/
theorem columnAlias_isSome (col : String × Option String) : (columnAlias srcs col).isSome ↔ Resolves srcs col := by
  obtain ⟨name, _ | tb⟩ := col
  · have hlen := length_hits name 0 srcs
    unfold columnAlias Resolves Scope.resolve
    simp only
    generalize srcs.filter (fun e => decide (name ∈ e.2.colnames)) = found at hlen ⊢
    generalize Scope.hits name 0 srcs = hits at hlen ⊢
    rcases found with _ | ⟨a, _ | ⟨b, rest⟩⟩ <;> rcases hits with _ | ⟨a', _ | ⟨b', rest'⟩⟩ <;> simp at hlen ⊢
  · unfold columnAlias Resolves Scope.resolve
    simp only [lookup_eq_findIdx]
    rcases hi : srcs.findIdx? (·.1 = tb) with _ | i
    · rw [hi]
      simp
    · have hlt := (List.findIdx?_eq_some_iff_getElem.1 hi).1
      rw [hi]
      simp only [Option.bind_some, List.getElem?_eq_getElem hlt, Option.map_some]
      rcases idxOf?_cases name srcs[i].2.colnames with ⟨j, hj, hmem⟩ | ⟨hj, hmem⟩ <;> simp [hj, hmem]

theorem columnAlias_mem {col : String × Option String} {label : String} (h : columnAlias srcs col = some label) :
    label ∈ srcs.map Prod.fst := by
  obtain ⟨name, _ | tb⟩ := col
  · unfold columnAlias at h
    simp only at h
    split at h
    · rename_i hit he
      cases h
      have hmem : hit ∈ srcs.filter fun e => decide (name ∈ e.2.colnames) := by
        rw [he]
        exact List.mem_singleton_self _
      exact List.mem_map_of_mem (List.mem_filter.1 hmem).1
    · cases h
  · unfold columnAlias at h
    simp only at h
    split at h
    · rename_i m he
      split at h
      · cases h
        rw [lookup_eq_findIdx, Option.bind_eq_some_iff] at he
        obtain ⟨i, hi, -⟩ := he
        obtain ⟨hlt, hlabel, -⟩ := List.findIdx?_eq_some_iff_getElem.1 hi
        exact List.mem_map.2 ⟨srcs[i], List.getElem_mem hlt, by simpa using hlabel⟩
      · cases h
    · cases h

end Names

/-! ### The scopes of a run -/

/-- The sources of a plan: the base table and the joined ones. -/
def Plan.sources (p : Plan) : List (String × TableMeta) :=
  (p.label, p.base.tmeta) :: p.joins.map fun j => (j.label, j.table.tmeta)

theorem Plan.length_sources (p : Plan) : p.sources.length = p.joins.length + 1 := by
  rw [Plan.sources, List.length_cons, List.length_map]

/-- The scope `run_select` has built after `s` joins. -/
def Plan.scopeAt (p : Plan) (s : Nat) : Except PyError Scope :=
  (p.sources.take (s + 1)).foldlM (fun scope e => scope.add e.1 e.2) .empty

section Scopes

theorem nodup_labels_concat {srcs : List (String × TableMeta)} {label : String} {m : TableMeta}
    (hnd : (srcs.map Prod.fst).Nodup) (h : label ∉ srcs.map Prod.fst) : ((srcs ++ [(label, m)]).map Prod.fst).Nodup := by
  rw [List.map_append, List.nodup_append]
  refine ⟨hnd, List.nodup_singleton _, ?_⟩
  rintro a ha b hb rfl
  obtain rfl := List.mem_singleton.1 hb
  exact h ha

theorem addAll_eq_ok {srcs more : List (String × TableMeta)} {scope : Scope} (hnd : (srcs.map Prod.fst).Nodup) :
    more.foldlM (fun scope e => scope.add e.1 e.2) (⟨srcs, []⟩ : Scope) = .ok scope ↔
      scope = ⟨srcs ++ more, []⟩ ∧ ((srcs ++ more).map Prod.fst).Nodup := by
  induction more generalizing srcs with
  | nil =>
    rw [List.append_nil]
    exact ⟨fun h => ⟨(Except.ok.inj h).symm, hnd⟩, fun h => by rw [h.1]; rfl⟩
  | cons e more ih =>
    obtain ⟨label, m⟩ := e
    rw [List.foldlM_cons, Scope.add]
    by_cases hmem : label ∈ srcs.map Prod.fst
    · rw [if_pos hmem]
      constructor
      · intro h
        cases h
      · rintro ⟨-, hnd'⟩
        rw [List.map_append, List.nodup_append] at hnd'
        exact absurd rfl (hnd'.2.2 label hmem label List.mem_cons_self)
    · rw [if_neg hmem]
      have h := ih (nodup_labels_concat (m := m) hnd hmem)
      rw [List.append_assoc] at h
      exact h

variable {p : Plan}

theorem scopeAt_eq_ok {s : Nat} {scope : Scope} :
    p.scopeAt s = .ok scope ↔ scope = ⟨p.sources.take (s + 1), []⟩ ∧ ((p.sources.take (s + 1)).map Prod.fst).Nodup :=
  @addAll_eq_ok [] _ _ List.nodup_nil

/-- `avail` are the first sources. -/
theorem availSources_eq {known joins : List (String × TableMeta)} (hnd : ((known ++ joins).map Prod.fst).Nodup) :
    joins.scanl (fun known j => setAlias known j.1 j.2) known =
      (List.range (joins.length + 1)).map fun s => known ++ joins.take s := by
  induction joins generalizing known with
  | nil => simp
  | cons j joins ih =>
    have hnot : j.1 ∉ known.map Prod.fst := by
      intro hmem
      rw [List.map_append, List.nodup_append] at hnd
      exact hnd.2.2 j.1 hmem j.1 List.mem_cons_self rfl
    have hset : setAlias known j.1 j.2 = known ++ [j] := by rw [setAlias, if_neg hnot]
    have hnd' : ((known ++ [j] ++ joins).map Prod.fst).Nodup := by rwa [List.append_assoc]
    have hrest := ih hnd'
    rw [List.scanl_cons, hset, hrest]
    conv_rhs => rw [List.length_cons, List.range_succ_eq_map, List.map_cons, List.map_map, List.take_zero, List.append_nil]
    refine congrArg (known :: ·) (List.map_congr_left fun s _ => ?_)
    show known ++ [j] ++ joins.take s = known ++ (j :: joins).take (s + 1)
    rw [List.take_succ_cons, List.append_assoc, List.singleton_append]

end Scopes

/-! ### The stage of a conjunct -/

section Stage

variable {p : Plan} {conj : Expr}

theorem mapM_isSome {α β : Type} {f : α → Option β} {as : List α} : (as.mapM f).isSome ↔ ∀ a ∈ as, (f a).isSome := by
  induction as with
  | nil => simp
  | cons a as ih =>
    rw [List.mapM_cons, List.forall_mem_cons, ← ih]
    cases f a <;> cases as.mapM f <;> simp

theorem mem_of_mapM {α β : Type} {f : α → Option β} {as : List α} {bs : List β} (h : as.mapM f = some bs) {b : β}
    (hb : b ∈ bs) : ∃ a ∈ as, f a = some b := by
  induction as generalizing bs with
  | nil =>
    cases h
    cases hb
  | cons a as ih =>
    rw [List.mapM_cons] at h
    rcases hf : f a with _ | c
    · simp [hf] at h
    rcases hm : as.mapM f with _ | cs
    · simp [hf, hm] at h
    simp only [hf, hm, Option.bind_eq_bind, Option.bind_some, Option.pure_def, Option.some_inj] at h
    subst h
    rcases List.mem_cons.1 hb with rfl | hb
    · exact ⟨a, List.mem_cons_self, hf⟩
    · obtain ⟨a', ha', hfa⟩ := ih hm hb
      exact ⟨a', List.mem_cons_of_mem _ ha', hfa⟩

theorem conjunctTables_isSome {srcs : List (String × TableMeta)} (h : walkFuncNodes conj = []) :
    (conjunctTables conj srcs).isSome ↔ ∀ col ∈ gather conj, Resolves srcs col := by
  unfold conjunctTables
  rw [if_neg (not_not.2 h), mapM_isSome]
  exact forall₂_congr fun col _ => columnAlias_isSome col

/-- The test of the loop over the stages. -/
theorem stage_test {srcs : List (String × TableMeta)} (h : walkFuncNodes conj = []) :
    (match conjunctTables conj srcs with
      | some refs => refs.all fun a => decide (a ∈ srcs.map Prod.fst)
      | none => false) = true ↔ ∀ col ∈ gather conj, Resolves srcs col := by
  rw [← conjunctTables_isSome h]
  rcases hrefs : conjunctTables conj srcs with _ | refs
  · simp
  · simp only [Option.isSome_some, iff_true, List.all_eq_true, decide_eq_true_eq]
    intro a ha
    rw [conjunctTables, if_neg (not_not.2 h)] at hrefs
    obtain ⟨col, -, hcol⟩ := mem_of_mapM hrefs ha
    exact columnAlias_mem hcol

/-- The stage is the first at which all gathered columns resolve. -/
theorem filterStage_spec {avail : List (List (String × TableMeta))} {full : List (String × TableMeta)}
    (h : walkFuncNodes conj = []) (hlast : avail.getLast? = some full) (hfull : ∀ col ∈ gather conj, Resolves full col) :
    (∃ srcs, avail[filterStage avail conj]? = some srcs ∧ ∀ col ∈ gather conj, Resolves srcs col) ∧
      ∀ s srcs, s < filterStage avail conj → avail[s]? = some srcs → ¬ ∀ col ∈ gather conj, Resolves srcs col := by
  unfold filterStage
  rw [hlast]
  simp only [h, true_and, if_pos ((conjunctTables_isSome h).2 hfull)]
  rcases hidx : List.findIdx? _ avail with _ | i
  · have hnone := List.findIdx?_eq_none_iff.1 hidx full (List.mem_of_getLast? hlast)
    rw [Bool.eq_false_iff] at hnone
    exact absurd ((stage_test h).2 hfull) hnone
  · obtain ⟨hlt, htest, hbefore⟩ := List.findIdx?_eq_some_iff_getElem.1 hidx
    refine ⟨⟨avail[i], List.getElem?_eq_getElem hlt, (stage_test h).1 htest⟩, fun s srcs hs hsrcs hall => ?_⟩
    have hs' : s < i := hs
    obtain ⟨hlen, rfl⟩ := List.getElem?_eq_some_iff.1 hsrcs
    exact hbefore s hs' ((stage_test h).2 hall)

/-- The sources `assign_filter_stages` sees at each stage. -/
def Plan.avail (p : Plan) : List (List (String × TableMeta)) :=
  availSources (p.label, p.base.tmeta) (p.joins.map fun j => (j.label, j.table.tmeta))

theorem length_avail : p.avail.length = p.joins.length + 1 := by
  rw [Plan.avail, length_availSources, List.length_map]

theorem avail_eq (hnd : (p.sources.map Prod.fst).Nodup) :
    p.avail = (List.range (p.joins.length + 1)).map fun s => p.sources.take (s + 1) := by
  have h : p.avail = _ := availSources_eq (by exact hnd)
  rw [h, List.length_map]
  rfl

theorem avail_getElem? (hnd : (p.sources.map Prod.fst).Nodup) {s : Nat} (hs : s ≤ p.joins.length) :
    p.avail[s]? = some (p.sources.take (s + 1)) := by
  rw [avail_eq hnd, List.getElem?_map, List.getElem?_range (by omega)]
  rfl

theorem avail_getLast? (hnd : (p.sources.map Prod.fst).Nodup) : p.avail.getLast? = some p.sources := by
  rw [avail_eq hnd, List.getLast?_map, List.getLast?_range, if_neg (by omega), Option.map_some, Nat.add_sub_cancel,
    List.take_of_length_le p.length_sources.le]

theorem stage_of_mem {db : Tables} {sel : SelectCore} (hplan : buildSelectPlan db sel = .ok p) {s : Nat}
    (hmem : (s, conj) ∈ p.filters) : s = filterStage p.avail conj := by
  obtain ⟨base, -, h⟩ := do_eq_ok.1 hplan
  obtain ⟨joins, -, h⟩ := do_eq_ok.1 h
  cases h
  obtain ⟨s', -, hf⟩ := List.mem_flatMap.1 hmem
  obtain ⟨c, hc, heq⟩ := List.mem_map.1 hf
  cases heq
  exact (of_decide_eq_true (List.mem_filter.1 hc).2).symm

theorem filterStage_of_funcs {avail : List (List (String × TableMeta))} (h : walkFuncNodes conj ≠ []) :
    filterStage avail conj = avail.length - 1 := by
  unfold filterStage
  split
  · rfl
  · rw [if_neg fun hc => h hc.1]

/-- The stage at which all gathered columns resolve, and before which one of them does not. -/
theorem stage_spec (hnd : (p.sources.map Prod.fst).Nodup) (h : walkFuncNodes conj = [])
    (hres : ∀ col ∈ gather conj, Resolves p.sources col) :
    filterStage p.avail conj ≤ p.joins.length ∧
      (∀ col ∈ gather conj, Resolves (p.sources.take (filterStage p.avail conj + 1)) col) ∧
      ∀ s < filterStage p.avail conj, ¬ ∀ col ∈ gather conj, Resolves (p.sources.take (s + 1)) col := by
  obtain ⟨⟨srcs, hsrcs, hall⟩, hbefore⟩ := filterStage_spec h (avail_getLast? hnd) hres
  have hle : filterStage p.avail conj ≤ p.joins.length := by
    have hlt := (List.getElem?_eq_some_iff.1 hsrcs).1
    have hlen := length_avail (p := p)
    omega
  rw [avail_getElem? hnd hle, Option.some_inj] at hsrcs
  subst hsrcs
  exact ⟨hle, hall, fun s hs => hbefore s _ hs (avail_getElem? hnd (hs.le.trans hle))⟩

/-- Column `col` is one of the table in slot `slot`. -/
def InSlot (srcs : List (String × TableMeta)) (col : String × Option String) (slot : Nat) : Prop :=
  ∃ j, Scope.resolve ⟨srcs, []⟩ col.1 col.2 = .ok (slot, j)

theorem InSlot.resolves_take {srcs : List (String × TableMeta)} {col : String × Option String} {slot s : Nat}
    (h : InSlot srcs col slot) : Resolves (srcs.take (s + 1)) col ↔ slot ≤ s := by
  obtain ⟨j, hj⟩ := h
  exact (LeafDb.resolves_take hj).trans Nat.lt_succ_iff

/-- The stage of a conjunct without visible aggregates is the last slot among its gathered columns. -/
theorem le_stage_iff (hnd : (p.sources.map Prod.fst).Nodup) (h : walkFuncNodes conj = [])
    (hres : ∀ col ∈ gather conj, Resolves p.sources col) (n : Nat) :
    n ≤ filterStage p.avail conj ↔ n = 0 ∨ ∃ col ∈ gather conj, ∃ slot, InSlot p.sources col slot ∧ n ≤ slot := by
  obtain ⟨-, hall, hbefore⟩ := stage_spec hnd h hres
  constructor
  · intro hn
    rcases Nat.eq_zero_or_pos n with hzero | hpos
    · exact .inl hzero
    · have hnot := hbefore (n - 1) (by omega)
      push Not at hnot
      obtain ⟨col, hcol, hcol'⟩ := hnot
      obtain ⟨⟨slot, j⟩, hloc⟩ := hres col hcol
      have hslot : InSlot p.sources col slot := ⟨j, hloc⟩
      rw [hslot.resolves_take] at hcol'
      exact .inr ⟨col, hcol, slot, hslot, by omega⟩
  · rintro (rfl | ⟨col, hcol, slot, hslot, hn⟩)
    · exact Nat.zero_le _
    · exact hn.trans (hslot.resolves_take.1 (hall col hcol))

end Stage

/-! ### Which conjuncts are staged well -/

/-- The conjunct can be compiled at stage `s`: every column of it resolves there as in the full scope. -/
structure StagedWell (lib : PyLib) (p : Plan) (full : Scope) (s : Nat) (conj : Expr) : Prop where
  resolves : ∃ scope, p.scopeAt s = .ok scope ∧
    ∀ col ∈ columns conj, ∃ loc, scope.resolve col.1 col.2 = .ok loc ∧ full.resolve col.1 col.2 = .ok loc
  compiles : ∃ scope fn, p.scopeAt s = .ok scope ∧ compileExpr lib scope [] false conj = .ok fn

/-- A column that is not gathered is one of the base table, or of a table that is joined no later than the table of a
gathered column; or `walk_func_nodes` finds an aggregate. -/
def StageSees (full : Scope) (conj : Expr) : Prop :=
  walkFuncNodes conj ≠ [] ∨ ∀ col ∈ columns conj, ∀ loc, full.resolve col.1 col.2 = .ok loc →
    loc.1 = 0 ∨ ∃ col' ∈ gather conj, ∃ loc', full.resolve col'.1 col'.2 = .ok loc' ∧ loc.1 ≤ loc'.1

section Staged

variable {lib : PyLib} {db : Tables} {sel : SelectCore} {p : Plan} {full : Scope} {s : Nat} {conj : Expr}

/-- Once the columns resolve at a stage, they resolve as in the full scope and the conjunct compiles. -/
theorem stagedWell_of_resolves (hnd : (p.sources.map Prod.fst).Nodup) (hres : ∀ col ∈ columns conj, Resolves p.sources col)
    (h : ∀ col ∈ columns conj, Resolves (p.sources.take (s + 1)) col) : StagedWell lib p ⟨p.sources, []⟩ s conj := by
  have hscope : p.scopeAt s = .ok ⟨p.sources.take (s + 1), []⟩ :=
    scopeAt_eq_ok.2 ⟨rfl, hnd.sublist ((List.take_sublist _ _).map _)⟩
  refine ⟨⟨_, hscope, fun col hcol => ?_⟩, ?_⟩
  · obtain ⟨⟨slot, j⟩, hloc⟩ := hres col hcol
    have hslot : InSlot p.sources col slot := ⟨j, hloc⟩
    have hle := hslot.resolves_take.1 (h col hcol)
    exact ⟨_, resolve_take hloc (Nat.lt_succ_of_le hle), hloc⟩
  · obtain ⟨fn, hfn⟩ := compileExpr_ok conj h
    exact ⟨_, fn, hscope, hfn⟩

theorem StagedWell.resolves_take (h : StagedWell lib p full s conj)
    {col : String × Option String} (hcol : col ∈ columns conj) : Resolves (p.sources.take (s + 1)) col := by
  obtain ⟨scope, hscope, hall⟩ := h.resolves
  obtain ⟨rfl, -⟩ := scopeAt_eq_ok.1 hscope
  obtain ⟨loc, hloc, -⟩ := hall col hcol
  exact ⟨loc, hloc⟩

theorem StagedWell.sees (hplan : buildSelectPlan db sel = .ok p) (hfull : p.scopeAt p.joins.length = .ok full)
    (hmem : (s, conj) ∈ p.filters) (hres : ∀ col ∈ columns conj, ∃ loc, full.resolve col.1 col.2 = .ok loc)
    (h : StagedWell lib p full s conj) : StageSees full conj := by
  obtain ⟨rfl, hnd⟩ := scopeAt_eq_ok.1 hfull
  rw [← p.length_sources, List.take_length] at hnd hres h ⊢
  by_cases hfuncs : walkFuncNodes conj = []
  · refine .inr fun col hcol loc hloc => ?_
    have hslot : InSlot p.sources col loc.1 := ⟨loc.2, hloc⟩
    have hle := hslot.resolves_take.1 (h.resolves_take hcol)
    rw [stage_of_mem hplan hmem, le_stage_iff hnd hfuncs fun col hc => hres col (gather_subset conj hc)] at hle
    rcases hle with hzero | ⟨col', hcol', slot, ⟨j, hslot⟩, hle⟩
    · exact .inl hzero
    · exact .inr ⟨col', hcol', (slot, j), hslot, hle⟩
  · exact .inl hfuncs

theorem StageSees.stagedWell (lib : PyLib) (hplan : buildSelectPlan db sel = .ok p)
    (hfull : p.scopeAt p.joins.length = .ok full) (hmem : (s, conj) ∈ p.filters)
    (hres : ∀ col ∈ columns conj, ∃ loc, full.resolve col.1 col.2 = .ok loc) (h : StageSees full conj) :
    StagedWell lib p full s conj := by
  obtain ⟨rfl, hnd⟩ := scopeAt_eq_ok.1 hfull
  rw [← p.length_sources, List.take_length] at hnd hres h ⊢
  refine stagedWell_of_resolves hnd hres fun col hcol => ?_
  obtain ⟨⟨slot, j⟩, hloc⟩ := hres col hcol
  have hslot : InSlot p.sources col slot := ⟨j, hloc⟩
  rw [hslot.resolves_take, stage_of_mem hplan hmem]
  by_cases hfuncs : walkFuncNodes conj = []
  · rw [le_stage_iff hnd hfuncs fun col hc => hres col (gather_subset conj hc)]
    rcases (h.resolve_left (not_not.2 hfuncs)) col hcol _ hloc with hzero | ⟨col', hcol', ⟨slot', j'⟩, hloc', hle⟩
    · exact .inl hzero
    · exact .inr ⟨col', hcol', slot', ⟨j', hloc'⟩, hle⟩
  · rw [filterStage_of_funcs hfuncs, length_avail, Nat.add_sub_cancel, ← hslot.resolves_take, ← p.length_sources,
      List.take_length]
    exact ⟨_, hloc⟩

end Staged

/-- A conjunct whose columns resolve in the full scope is staged where they resolve, if and only if the columns
`assign_filter_stages` does not see are not later than those it sees. -/
theorem stagedWell_iff (lib : PyLib) {db : Tables} {sel : SelectCore} {p : Plan} {full : Scope} {s : Nat} {conj : Expr}
    (hplan : buildSelectPlan db sel = .ok p) (hfull : p.scopeAt p.joins.length = .ok full) (hmem : (s, conj) ∈ p.filters)
    (hres : ∀ col ∈ columns conj, ∃ loc, full.resolve col.1 col.2 = .ok loc) :
    StagedWell lib p full s conj ↔ StageSees full conj :=
  ⟨fun h => h.sees hplan hfull hmem hres, fun h => h.stagedWell lib hplan hfull hmem hres⟩

/-- A table with one INT column and the row `(1)`. -/
def oneRow (name col : String) : Table where
  tmeta := ⟨name, [⟨col, .int, false⟩], 1, 1, 2, []⟩
  rows := [(1, [.int 1])]
  index := fun _ => none
  colnames_nodup := by simp [TableMeta.colnames]
  ascending := by simp
  width := by simp
  pk_eq := by
    intro i h
    simp [TableMeta.pkIndex] at h
  index_agrees := by simp

/-- `FROM t JOIN u ON t.x = u.y WHERE t.x LIKE pat`. -/
def likeJoin (pat : Expr) : SelectCore where
  table := "t"
  alias? := none
  joins := [⟨.inner, "u", none, .binop .eq (.column "x" (some "t")) (.column "y" (some "u"))⟩]
  where? := some (.like (.column "x" (some "t")) pat false)

theorem get_t : Tables.get [oneRow "t" "x", oneRow "u" "y"] "t" = .ok (oneRow "t" "x") := by
  have hlower : "t".toLower = "t" := by decide +kernel
  simp [Tables.get, oneRow, hlower]

theorem get_u : Tables.get [oneRow "t" "x", oneRow "u" "y"] "u" = .ok (oneRow "u" "y") := by
  have hlower : "u".toLower = "u" := by decide +kernel
  simp [Tables.get, oneRow, hlower]

/-- The plan of `likeJoin`: the conjunct is applied to `t` alone. -/
def likePlan (pat : Expr) : Plan where
  base := oneRow "t" "x"
  label := "t"
  access := .seq
  joins := [⟨.inner, oneRow "u" "y", "u", .binop .eq (.column "x" (some "t")) (.column "y" (some "u")),
    .hashRight ⟨("t", "x"), "y"⟩⟩]
  filters := [(0, .like (.column "x" (some "t")) pat false)]

theorem likePlan_eq (pat : Expr) : buildSelectPlan [oneRow "t" "x", oneRow "u" "y"] (likeJoin pat) = .ok (likePlan pat) := by
  simp only [buildSelectPlan, likeJoin, get_t, planJoins, get_u]
  rfl

theorem likePlan_scope (pat : Expr) : (likePlan pat).scopeAt (likePlan pat).joins.length =
    .ok ⟨[("t", (oneRow "t" "x").tmeta), ("u", (oneRow "u" "y").tmeta)], []⟩ :=
  scopeAt_eq_ok.2 ⟨rfl, by show ["t", "u"].Nodup; decide⟩

theorem stagedWell_iff_literal :
    StagedWell plainLib (likePlan (.literal (.str "1%")))
        ⟨[("t", (oneRow "t" "x").tmeta), ("u", (oneRow "u" "y").tmeta)], []⟩ 0
        (.like (.column "x" (some "t")) (.literal (.str "1%")) false) ↔
      StageSees ⟨[("t", (oneRow "t" "x").tmeta), ("u", (oneRow "u" "y").tmeta)], []⟩
        (.like (.column "x" (some "t")) (.literal (.str "1%")) false) := by
  refine stagedWell_iff plainLib (likePlan_eq _) (likePlan_scope _) (List.mem_singleton_self _) fun col hcol => ?_
  obtain rfl := List.mem_singleton.1 hcol
  exact ⟨(0, 0), by decide +kernel⟩

/-- The pattern of `t.x LIKE u.y` is not seen: the conjunct is compiled before `u` is joined. -/
theorem not_stagedWell :
    ¬ ∀ (lib : PyLib) (db : Tables) (sel : SelectCore) (p : Plan) (full : Scope) (s : Nat) (conj : Expr),
    buildSelectPlan db sel = .ok p → p.scopeAt p.joins.length = .ok full → (s, conj) ∈ p.filters →
    (∀ col ∈ columns conj, ∃ loc, full.resolve col.1 col.2 = .ok loc) → StagedWell lib p full s conj := by
  intro h
  have hwell := h plainLib _ _ _ _ _ _ (likePlan_eq (.column "y" (some "u"))) (likePlan_scope _)
    (List.mem_singleton_self _) (by
      intro col hcol
      rcases List.mem_cons.1 hcol with rfl | hcol
      · exact ⟨(0, 0), by decide +kernel⟩
      · obtain rfl := List.mem_singleton.1 hcol
        exact ⟨(1, 0), by decide +kernel⟩)
  have hpat : ("y", some "u") ∈ columns (.like (.column "x" (some "t")) (.column "y" (some "u")) false) :=
    List.mem_cons_of_mem _ List.mem_cons_self
  obtain ⟨loc, hloc⟩ := hwell.resolves_take hpat
  have hunknown : Scope.resolve ⟨[("t", (oneRow "t" "x").tmeta)], []⟩ "y" (some "u") = .error .executionError := by
    decide +kernel
  cases hunknown.symm.trans hloc

example : (selectContexts plainLib [oneRow "t" "x", oneRow "u" "y"] (likeJoin (.column "y" (some "u")))).map Prod.snd =
    .error .executionError := by
  decide +kernel

end LeafDb
