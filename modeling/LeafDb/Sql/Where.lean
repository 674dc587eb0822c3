import LeafDb.Sql.Select

/-!
# WHERE in SELECT and in DELETE or UPDATE

SELECT filters conjunct by conjunct and wants each to be `True`; `_matching_rows` wants the whole closure
to be `True`, and `and_fn` returns `True` on any two truthy operands. `Passes` is the first test,
`passes_of_flatten` relates the two.
-/

namespace LeafDb

/-! ### `_matching_rows` -/

/-- The shortcut of `_matching_rows`: the first equality on the primary key or on an indexed column. -/
def chooseShortcut (m : TableMeta) (eqs : List ((String × Option String) × Value)) : Option Access :=
  let usable := eqs.filter fun e => columnMatches e.1 m.name m.colnames
  (usable.find? fun e => decide (some e.1.1 = m.pkColumn) || (m.indexes.lookup e.1.1).isSome).map fun e =>
    if some e.1.1 = m.pkColumn then .pk e.2 else .index e.1.1 e.2

/-- The candidates of a shortcut; `none` when a key that is no integer makes the code scan the table. -/
def shortcutRows (t : TableData) : Access → Option (List (Int × Row))
  | .seq => none
  | .pk v =>
    match coercePk v with
    | .error _ => none
    | .ok rid =>
      match t.search rid with
      | some row => some [(rid, row)]
      | none => some []
  | .index col v => some (t.indexLookup col v)

/-- `Database._matching_rows`. -/
def matchingRows (lib : PyLib) (t : TableData) : Option Expr → Except PyError (List (Int × Row))
  | none => .ok t.rows
  | some w => do
    let source := ((chooseShortcut t.tmeta (findEquiPredicates (flattenAnd w))).bind (shortcutRows t)).getD t.rows
    let scope ← Scope.empty.add t.tmeta.name t.tmeta
    let whereFn ← compileExpr lib scope [] false w
    keepTrue (fun r => whereFn [some r.2] none) source

/-! ### `SELECT * FROM t WHERE w` -/

/-- `_pk_fast_path` of `SELECT *`: the rows, if it applies. -/
def pkFastPathStar (t : Table) (label : String) : Option Expr → Option (List Row)
  | some (.binop .eq (.column name table) (.literal v)) => lookup name table v
  | some (.binop .eq (.literal v) (.column name table)) => lookup name table v
  | _ => none
where
  lookup (name : String) (table : Option String) (v : Value) : Option (List Row) :=
    if (table = none ∨ table = some label) ∧ some name = t.tmeta.pkColumn then
      match coercePk v with
      | .error _ => none
      | .ok key => some (t.search key).toList
    else none

/-- The projection of `*`: the columns of every source, `None` for a padded one. -/
def starRow (scope : Scope) (parts : Parts) : Row :=
  (scope.sources.zip parts).flatMap fun p =>
    match p.2 with
    | none => List.replicate p.1.2.columns.length .none
    | some row => row.take p.1.2.columns.length

/-- The rows of `SELECT * FROM name WHERE w`. -/
def selectStar (lib : PyLib) (db : Tables) (name : String) (w : Expr) : Except PyError (List Row) := do
  let t ← db.get name
  match pkFastPathStar t name (some w) with
  | some rows => return rows
  | none =>
    let (scope, contexts) ← selectContexts lib db ⟨name, none, [], some w⟩
    return contexts.map (starRow scope)

/-! ### Filters that do not raise -/

section Filter

variable {α : Type}

theorem keepTrue_eq {f : α → Except PyError Value} {l : List α} (h : ∀ a ∈ l, ∃ v, f a = .ok v) :
    keepTrue f l = .ok (l.filter fun a => decide (f a = .ok (.bool true))) := by
  induction l with
  | nil => rfl
  | cons a as ih =>
    obtain ⟨v, hv⟩ := h a (by simp)
    rw [keepTrue, hv, ih fun b hb => h b (by simp [hb])]
    by_cases hb : v = .bool true <;> simp [hb, hv, bind, Except.bind, pure, Except.pure]

/-- The conjuncts, each `True`, one after the other. -/
def passes : List Closure → Parts → Except PyError Bool
  | [], _ => .ok true
  | f :: fs, parts => do
    let v ← f parts none
    if v = .bool true then passes fs parts else return false

theorem passes_append {fs gs : List Closure} {parts : Parts} :
    passes (fs ++ gs) parts = (do if (← passes fs parts) then passes gs parts else return false) := by
  induction fs with
  | nil => rfl
  | cons f fs ih =>
    simp only [List.cons_append, passes, ih]
    rcases f parts none with e | v
    · rfl
    · by_cases hv : v = .bool true <;> simp [hv, bind, Except.bind, pure, Except.pure]

theorem passes_true {fs : List Closure} {parts : Parts} :
    passes fs parts = .ok true ↔ ∀ f ∈ fs, f parts none = .ok (.bool true) := by
  induction fs with
  | nil => simp [passes]
  | cons f fs ih =>
    simp only [passes, List.forall_mem_cons, ← ih]
    rcases f parts none with e | v
    · simp [bind, Except.bind]
    · by_cases hv : v = .bool true <;> simp [hv, bind, Except.bind, pure, Except.pure]

/-- A stage keeps the contexts that pass its conjuncts. -/
theorem applyStage_eq {lib : PyLib} {scope : Scope} {conjs : List Expr} {fns : List Closure} {ctxs : List Parts}
    (hc : List.Forall₂ (fun c f => compileExpr lib scope [] false c = .ok f) conjs fns)
    (h : ∀ parts ∈ ctxs, ∃ b, passes fns parts = .ok b) :
    applyStage lib scope conjs ctxs = .ok (ctxs.filter fun parts => decide (passes fns parts = .ok true)) := by
  induction hc generalizing ctxs with
  | nil => simp [applyStage, passes]
  | @cons c f conjs fns hf _ ih =>
    have hv : ∀ parts ∈ ctxs, ∃ v, f parts none = .ok v := by
      intro parts hp
      obtain ⟨b, hb⟩ := h parts hp
      obtain ⟨v, hv, -⟩ := do_eq_ok.1 hb
      exact ⟨v, hv⟩
    rw [applyStage, hf]
    simp only [bind, Except.bind]
    rw [keepTrue_eq hv]
    simp only
    rw [ih, List.filter_filter]
    · congr 2
      funext parts
      rw [Bool.and_comm, ← Bool.decide_and, decide_eq_decide, passes_true, passes_true, List.forall_mem_cons]
    · intro parts hp
      obtain ⟨hp, ht⟩ := List.mem_filter.1 hp
      obtain ⟨b, hb⟩ := h parts hp
      rw [passes, of_decide_eq_true ht] at hb
      exact ⟨b, by simpa [bind, Except.bind] using hb⟩

end Filter

/-! ### The conjuncts of a WHERE expression and its closure -/

section Conjuncts

variable {lib : PyLib} {scope : Scope}

/-- What the closure of `w` on one row says about the closures of its conjuncts. -/
structure Flattened (fns : List Closure) (parts : Parts) (v : Value) : Prop where
  /-- Testing the conjuncts one by one does not raise, and passing them all makes `w` true. -/
  passes : ∃ b, passes fns parts = .ok b ∧ (b = true → v = .bool true)
  truthy : v.truthy = true ↔ ∀ f ∈ fns, ∃ u, f parts none = .ok u ∧ u.truthy = true

theorem andFn_ok {lfn rfn : Closure} {parts : Parts} {v : Value} (h : andFn lfn rfn parts none = .ok v) :
    ∃ l, lfn parts none = .ok l ∧ ((l ≠ .none ∧ l.truthy = false ∧ v = .bool false) ∨
      ∃ r, rfn parts none = .ok r ∧ (l = .none ∨ l.truthy = true) ∧
        (v = .bool true ↔ l.truthy = true ∧ r.truthy = true) ∧ (v.truthy = true → v = .bool true)) := by
  obtain ⟨l, hl, h⟩ := do_eq_ok.1 h
  refine ⟨l, hl, ?_⟩
  split at h
  · rename_i hf
    cases h
    exact .inl ⟨hf.1, hf.2, rfl⟩
  · rename_i hf
    obtain ⟨r, hr, h⟩ := do_eq_ok.1 h
    have hl' : l = .none ∨ l.truthy = true := by
      rw [not_and_or, not_not, Bool.not_eq_false] at hf
      exact hf
    refine .inr ⟨r, hr, hl', ?_⟩
    split at h
    · rename_i hrf
      cases h
      exact ⟨by simp [hrf.2], by simp [Value.truthy]⟩
    · rename_i hrf
      have hr' : r = .none ∨ r.truthy = true := by
        rw [not_and_or, not_not, Bool.not_eq_false] at hrf
        exact hrf
      split at h
      · rename_i hn
        cases h
        rcases hn with rfl | rfl <;> simp [Value.truthy]
      · rename_i hn
        cases h
        rw [not_or] at hn
        simp [hl'.resolve_left hn.1, hr'.resolve_left hn.2]

theorem flatten_compile {w : Expr} {fn : Closure} (h : compileExpr lib scope [] false w = .ok fn) :
    ∃ fns, List.Forall₂ (fun c f => compileExpr lib scope [] false c = .ok f) (flattenAnd w) fns ∧
      ∀ parts v, fn parts none = .ok v → Flattened fns parts v := by
  induction w using flattenAnd.induct generalizing fn with
  | case1 l r ihl ihr =>
    simp only [compileExpr] at h
    obtain ⟨lfn, hl, h⟩ := do_eq_ok.1 h
    obtain ⟨rfn, hr, h⟩ := do_eq_ok.1 h
    cases h
    obtain ⟨fl, hfl, hL⟩ := ihl hl
    obtain ⟨fr, hfr, hR⟩ := ihr hr
    refine ⟨fl ++ fr, ?_, fun parts v hv => ?_⟩
    · rw [flattenAnd]
      exact List.rel_append hfl hfr
    obtain ⟨lv, hlv, hcase⟩ := andFn_ok hv
    obtain ⟨⟨bl, hbl, hbl'⟩, htl⟩ := hL parts lv hlv
    rcases hcase with ⟨hne, hfalse, rfl⟩ | ⟨rv, hrv, hlt, hiff, htr⟩
    · have hbf : bl = false := by
        rw [← Bool.not_eq_true]
        intro hb
        simp [hbl' hb, Value.truthy] at hfalse
      refine ⟨⟨false, by rw [passes_append, hbl, hbf]; rfl, by simp⟩, ?_⟩
      constructor
      · simp [Value.truthy]
      · intro hall
        rw [htl.2 fun f hf => hall f (by simp [hf])] at hfalse
        cases hfalse
    · obtain ⟨⟨br, hbr, hbr'⟩, htr'⟩ := hR parts rv hrv
      constructor
      · refine ⟨bl && br, ?_, ?_⟩
        · rw [passes_append, hbl]
          rcases bl <;> simp [bind, Except.bind, hbr, pure, Except.pure]
        · intro hb
          rw [Bool.and_eq_true] at hb
          exact hiff.2 ⟨by rw [hbl' hb.1]; rfl, by rw [hbr' hb.2]; rfl⟩
      · rw [show v.truthy = true ↔ v = .bool true from ⟨htr, fun e => by rw [e]; rfl⟩, hiff, htl, htr']
        simp only [List.mem_append, or_imp, forall_and]
  | case2 w hw =>
    refine ⟨[fn], ?_, fun parts v hv => ⟨⟨decide (v = .bool true), ?_, by simp⟩, by simp [hv]⟩⟩
    · rw [flattenAnd.eq_2 w hw]
      exact .cons h .nil
    · by_cases hb : v = .bool true <;> simp [passes, hv, hb, bind, Except.bind, pure, Except.pure]

end Conjuncts

/-! ### Equality and access paths -/

namespace Value

theorem pyEq_symm (a b : Value) : a.pyEq b = b.pyEq a := by
  rcases a with _ | a | a | (_ | a | ⟨a, a'⟩) | a <;> rcases b with _ | b | b | (_ | b | ⟨b, b'⟩) | b <;>
    simp [pyEq, ext, Ext.eq, eq_comm]

theorem eq_eq_pyEq (a b : Value) : a.eq b = a.pyEq b := by
  rcases a with _ | a | a | (_ | a | ⟨a, a'⟩) | a <;> rcases b with _ | b | b | (_ | b | ⟨b, b'⟩) | b <;>
    simp [Value.eq, isStr, pyEq, ext]

theorem pyEq_none (a : Value) : a.pyEq .none = true ↔ a = .none := by
  rcases a with _ | a | a | (_ | a | ⟨a, a'⟩) | a <;> simp [pyEq, ext]

end Value

theorem truncFloat_of_integral {n : Bool} {m : ℚ≥0} (h : m.den = 1) :
    Value.truncFloat (.fin n m) = .ok (if n then -(m.num : Int) else m.num) ∧
      PyFloat.signed n m = (if n then -(m.num : Int) else m.num : Int) := by
  have hm : (m : ℚ) = (m.num : Int) := by
    rw [← NNRat.num_div_den m, h]
    simp
  rcases n <;> simp [Value.truncFloat, PyFloat.signed, hm]

/-- A literal equal to an integer is coerced to it as a primary key. -/
theorem coercePk_iff {v : Value} (hb : ∀ b, v ≠ .bool b) {i : Int} :
    coercePk v = .ok i ↔ (Value.int i).pyEq v = true := by
  rcases v with _ | b | j | (_ | n | ⟨n, m⟩) | s
  · simp [coercePk, Value.pyEq, Value.ext]
  · exact absurd rfl (hb b)
  · simp [coercePk, Value.pyEq, Value.ext, Ext.eq, eq_comm]
  · simp [coercePk, Value.pyEq, Value.ext, Ext.eq]
  · simp [coercePk, Value.pyEq, Value.ext, Ext.eq]
  · simp only [coercePk, Value.isIntegral, Value.pyEq, Value.ext, Ext.eq, decide_eq_true_eq, Ext.fin.injEq]
    by_cases h : m.den = 1
    · obtain ⟨ht, hs⟩ := truncFloat_of_integral (n := n) h
      rw [if_pos h, ht, hs, Except.ok.injEq, Int.cast_inj, eq_comm]
    · rw [if_neg h]
      constructor
      · intro e
        cases e
      · intro e
        refine absurd ?_ h
        have hm : (m : ℚ) = ((if n then -i else i : Int) : ℚ) := by
          rcases n <;> simp_all [PyFloat.signed]
        have hd : (m : ℚ).den = 1 := by rw [hm]; exact Rat.den_intCast _
        exact hd
  · simp [coercePk, Value.pyEq, Value.ext]

namespace Table

variable (t : Table)

theorem nodup_rowids : (t.rows.map Prod.fst).Nodup := by
  rw [List.Nodup, List.pairwise_map]
  exact t.ascending.imp fun h => h.ne

theorem search_eq_some {rid : Int} {row : Row} : t.search rid = some row ↔ (rid, row) ∈ t.rows := by
  rw [TableData.search, Option.map_eq_some_iff]
  constructor
  · rintro ⟨r, hr, rfl⟩
    have hm := List.mem_of_find?_eq_some hr
    obtain rfl : r.1 = rid := by simpa using List.find?_some hr
    exact hm
  · intro hm
    rcases hf : t.rows.find? (·.1 = rid) with _ | r
    · have hne := List.find?_eq_none.1 hf _ hm
      simp at hne
    · have hr := List.mem_of_find?_eq_some hf
      have hrid : r.1 = rid := by simpa using List.find?_some hf
      exact ⟨r, hf, congrArg Prod.snd (List.inj_on_of_nodup_map t.nodup_rowids hr hm hrid)⟩

/-- Lists of rows of the table in rowid order with the same members are equal. -/
theorem eq_of_mem_iff {l l' : List (Int × Row)} (h : l.Pairwise fun a b => a.1 < b.1)
    (h' : l'.Pairwise fun a b => a.1 < b.1) (hm : ∀ r, r ∈ l ↔ r ∈ l') : l = l' := by
  have nd : ∀ {l : List (Int × Row)}, l.Pairwise (fun a b => a.1 < b.1) → l.Nodup :=
    fun h => h.imp fun hab e => absurd (congrArg Prod.fst e) hab.ne
  exact ((List.perm_ext_iff_of_nodup (nd h) (nd h')).2 hm).eq_of_pairwise
    (fun a b _ _ hab hba => absurd (hab.trans hba) (lt_irrefl _)) h h'

theorem filter_search (key : Int) :
    ((t.search key).toList.map fun row => (key, row)) = t.rows.filter fun r => decide (r.1 = key) := by
  refine eq_of_mem_iff ?_ (t.ascending.filter _) fun r => ?_
  · rcases t.search key with _ | row <;> simp
  · obtain ⟨rid, row⟩ := r
    simp only [List.mem_map, Option.mem_toList, search_eq_some, List.mem_filter, decide_eq_true_eq, Prod.mk.injEq]
    constructor
    · rintro ⟨row', hr, rfl, rfl⟩
      exact ⟨hr, rfl⟩
    · rintro ⟨hr, rfl⟩
      exact ⟨row, hr, rfl, rfl⟩

/-- The value in column `j` equals `v`. -/
def colEquals (j : Nat) (v : Value) (r : Int × Row) : Bool :=
  match r.2[j]? with
  | some x => decide (x ≠ .none) && x.pyEq v
  | none => false

/-- Rows on which an equality on an indexed column holds are what the index finds. -/
theorem indexLookup_eq {col : String} {j : Nat} (hi : (t.tmeta.indexes.lookup col).isSome)
    (hj : t.tmeta.colnames.idxOf? col = some j) (v : Value) :
    t.indexLookup col v = t.rows.filter (colEquals j v) := by
  obtain ⟨idx, hidx, hagree⟩ := t.index_agrees col hi
  refine eq_of_mem_iff ?_ (t.ascending.filter _) fun r => ?_
  · rw [TableData.indexLookup, hidx]
    have hnd : ((idx.get v).insertionSort (· ≤ ·)).Nodup :=
      (List.perm_insertionSort (· ≤ ·) _).nodup_iff.2 (hagree.nodup v)
    have hle := List.pairwise_insertionSort (· ≤ ·) (idx.get v)
    refine List.Pairwise.filterMap _ ?_ ((hle.and hnd).imp fun h => lt_of_le_of_ne h.1 h.2)
    intro a a' haa b hb b' hb'
    simp only [Option.map_eq_some_iff] at hb hb'
    obtain ⟨_, _, rfl⟩ := hb
    obtain ⟨_, _, rfl⟩ := hb'
    exact haa
  · obtain ⟨rid, row⟩ := r
    simp only [TableData.indexLookup, hidx, List.mem_filterMap, List.mem_insertionSort, hagree.mem_iff j hj, List.mem_filter,
      Option.map_eq_some_iff, search_eq_some, Prod.mk.injEq]
    constructor
    · rintro ⟨rid', ⟨row', x, hr', hx, hn, hv⟩, row'', hr'', rfl, rfl⟩
      obtain rfl : row' = row'' :=
        congrArg Prod.snd (List.inj_on_of_nodup_map t.nodup_rowids hr' hr'' rfl)
      exact ⟨hr'', by simp [colEquals, hx, hn, hv]⟩
    · rintro ⟨hr, hv⟩
      rcases hx : row[j]? with _ | x
      · simp [colEquals, hx] at hv
      · simp only [colEquals, hx, Bool.and_eq_true, decide_eq_true_eq] at hv
        exact ⟨rid, ⟨row, x, hr, hx, hv.1, hv.2⟩, row, hr, rfl, rfl⟩

end Table

/-! ### Equality conjuncts on one table -/

/-- The scope of a statement on one table. -/
def singleScope (label : String) (m : TableMeta) : Scope := ⟨[(label, m)], []⟩

theorem add_empty (label : String) (m : TableMeta) : Scope.empty.add label m = .ok (singleScope label m) := rfl

theorem resolve_single {m : TableMeta} {label name : String} {table : Option String}
    (h : columnMatches (name, table) label m.colnames = true) :
    ∃ j, m.colnames.idxOf? name = some j ∧ (singleScope label m).resolve name table = .ok (0, j) := by
  rcases table with _ | tb
  · simp only [columnMatches, decide_eq_true_eq] at h
    obtain ⟨j, hj⟩ := Option.isSome_iff_exists.1 (List.isSome_idxOf?.2 h)
    exact ⟨j, hj, by simp [Scope.resolve, singleScope, Scope.hits, hj]⟩
  · simp only [columnMatches, decide_eq_true_eq] at h
    obtain ⟨rfl, h⟩ := h
    obtain ⟨j, hj⟩ := Option.isSome_iff_exists.1 (List.isSome_idxOf?.2 h)
    exact ⟨j, hj, by simp [Scope.resolve, singleScope, hj]⟩

/-- The two shapes of a conjunct that `find_equi_predicates` finds. -/
def IsEqui (c : Expr) (e : (String × Option String) × Value) : Prop :=
  c = .binop .eq (.column e.1.1 e.1.2) (.literal e.2) ∨ c = .binop .eq (.literal e.2) (.column e.1.1 e.1.2)

theorem isEqui_of_mem {conjs : List Expr} {e : (String × Option String) × Value}
    (h : e ∈ findEquiPredicates conjs) : ∃ c ∈ conjs, IsEqui c e := by
  obtain ⟨c, hc, he⟩ := List.mem_filterMap.1 h
  refine ⟨c, hc, ?_⟩
  split at he
  · cases he
    exact .inl rfl
  · cases he
    exact .inr rfl
  · cases he

variable {lib : PyLib}

/-- The value of an equality conjunct on a row. -/
theorem equi_value {m : TableMeta} {label : String} {c : Expr} {e : (String × Option String) × Value}
    (hm : columnMatches e.1 label m.colnames = true) (hc : IsEqui c e) {f : Closure}
    (hf : compileExpr lib (singleScope label m) [] false c = .ok f) :
    ∃ j, m.colnames.idxOf? e.1.1 = some j ∧ ∀ row x, row[j]? = some x →
      f [some row] none = .ok (if x = .none ∨ e.2 = .none then .none else .bool (x.pyEq e.2)) := by
  obtain ⟨⟨name, table⟩, v⟩ := e
  obtain ⟨j, hj, hr⟩ := resolve_single hm
  refine ⟨j, hj, fun row x hx => ?_⟩
  have hcol : readCol 0 j [some row] none = .ok x := by simp [readCol, hx]
  rcases hc with rfl | rfl
  · simp only [compileExpr, compileColumn, hr] at hf
    cases hf
    simp only [binopFn, strictFn, hcol, bind, Except.bind]
    split <;> simp_all [Value.eq_eq_pyEq, pure, Except.pure]
  · simp only [compileExpr, compileColumn, hr] at hf
    cases hf
    simp only [binopFn, strictFn, hcol, bind, Except.bind]
    by_cases hn : v = .none ∨ x = .none
    · simp [hn, or_comm.1 hn, pure, Except.pure]
    · simp [hn, mt or_comm.1 hn, Value.eq_eq_pyEq, Value.pyEq_symm v x]

theorem pkIndex_of_pkColumn {m : TableMeta} (hnd : m.colnames.Nodup) {name : String} {j : Nat}
    (hpk : some name = m.pkColumn) (hj : m.colnames.idxOf? name = some j) : m.pkIndex = some j := by
  unfold TableMeta.pkColumn at hpk
  obtain ⟨c, hc, rfl⟩ := Option.map_eq_some_iff.1 hpk.symm
  unfold TableMeta.pkIndex
  rw [List.findIdx?_eq_some_iff_getElem]
  rw [List.find?_eq_some_iff_getElem] at hc
  obtain ⟨hp, i, hi, hci, hlt⟩ := hc
  have hij : i = j := by
    rw [List.idxOf?_eq_some_iff] at hj
    obtain ⟨hjl, hjn, -⟩ := hj
    have hil : i < m.colnames.length := by simpa [TableMeta.colnames] using hi
    have hsame : m.colnames[i] = m.colnames[j] := by
      rw [hjn]
      simp [TableMeta.colnames, hci]
    exact (List.Nodup.getElem_inj_iff hnd).1 hsame
  subst hij
  exact ⟨hi, by rw [hci]; exact hp, fun k hk => by simpa using hlt k hk⟩

/-! ### Both access paths keep every row that can match -/

section Access

variable (t : Table)

theorem scan_pk_eq (v : Value) :
    (Access.pk v).scan t = t.rows.filter fun r => decide (coercePk v = .ok r.1) := by
  rw [Access.scan]
  split
  · rename_i hv
    subst hv
    simp [coercePk]
  · rcases hk : coercePk v with e | key
    · simp
    · simp only [Except.ok.injEq]
      have h := t.filter_search key
      simp only [eq_comm (a := key)]
      rw [← h]
      rcases t.search key with _ | row <;> rfl

theorem shortcut_pk_eq {v : Value} {l : List (Int × Row)} (h : shortcutRows t (.pk v) = some l) :
    l = t.rows.filter fun r => decide (coercePk v = .ok r.1) := by
  rw [shortcutRows] at h
  rcases hk : coercePk v with e | key
  · simp [hk] at h
  · simp only [hk, Except.ok.injEq] at h ⊢
    have h' := t.filter_search key
    simp only [eq_comm (a := key)]
    rw [← h']
    rcases hs : t.search key with _ | row <;> simp_all

/-- An access path through the equality `e`: what it reads of the table. -/
def throughEqui (e : (String × Option String) × Value) : Access → Prop
  | .seq => False
  | .pk v => some e.1.1 = t.tmeta.pkColumn ∧ v = e.2
  | .index col v => (t.tmeta.indexes.lookup col).isSome ∧ col = e.1.1 ∧ v = e.2

variable {t}

/-- Rows on which the equality is true are read by the access path. -/
theorem covers_of_equi {label : String} {c : Expr} {e : (String × Option String) × Value}
    (hm : columnMatches e.1 label t.tmeta.colnames = true) (hc : IsEqui c e) {f : Closure}
    (hf : compileExpr lib (singleScope label t.tmeta) [] false c = .ok f) {acc : Access}
    (hb : ∀ v, acc = .pk v → ∀ b, v ≠ .bool b) (hacc : throughEqui t e acc) {l : List (Int × Row)}
    (hl : l = acc.scan t ∨ shortcutRows t acc = some l) :
    ∃ Q : Int × Row → Bool, l = t.rows.filter Q ∧
      ∀ r ∈ t.rows, ∀ u, f [some r.2] none = .ok u → u.truthy = true → Q r = true := by
  obtain ⟨j, hj, hval⟩ := equi_value hm hc hf
  have hjl : j < t.tmeta.columns.length := by
    have h := (List.idxOf?_eq_some_iff.1 hj).1
    simpa [TableMeta.colnames] using h
  have htrue : ∀ r ∈ t.rows, ∀ u, f [some r.2] none = .ok u → u.truthy = true →
      ∃ x, r.2[j]? = some x ∧ x ≠ .none ∧ x.pyEq e.2 = true := by
    intro r hr u hu ht
    have hjr : j < r.2.length := by rw [t.width r hr]; exact hjl
    have hx : r.2[j]? = some r.2[j] := List.getElem?_eq_getElem hjr
    rw [hval r.2 _ hx, Except.ok.injEq] at hu
    subst hu
    split at ht
    · cases ht
    · rename_i hn
      exact ⟨_, hx, (not_or.1 hn).1, by simpa [Value.truthy] using ht⟩
  rcases acc with _ | v | ⟨col, v⟩
  · exact hacc.elim
  · obtain ⟨hpk, rfl⟩ := hacc
    refine ⟨fun r => decide (coercePk e.2 = .ok r.1), ?_, fun r hr u hu ht => ?_⟩
    · rcases hl with rfl | hl
      · exact scan_pk_eq t e.2
      · exact shortcut_pk_eq t hl
    · obtain ⟨x, hx, -, he⟩ := htrue r hr u hu ht
      rw [t.pk_eq j (pkIndex_of_pkColumn t.colnames_nodup hpk hj) r hr] at hx
      cases hx
      exact decide_eq_true ((coercePk_iff (hb _ rfl)).2 he)
  · obtain ⟨hi, rfl, rfl⟩ := hacc
    refine ⟨Table.colEquals j e.2, ?_, fun r hr u hu ht => ?_⟩
    · have e1 : l = t.indexLookup e.1.1 e.2 := by
        rcases hl with rfl | hl
        · rfl
        · exact (Option.some.inj hl).symm
      rw [e1, t.indexLookup_eq hi hj]
    · obtain ⟨x, hx, hn, he⟩ := htrue r hr u hu ht
      simp [Table.colEquals, hx, hn, he]

theorem pk_not_bool {e : (String × Option String) × Value} (hb : ∀ b, e.2 ≠ .bool b) {acc : Access} (hacc : throughEqui t e acc) :
    ∀ v, acc = .pk v → ∀ b, v ≠ .bool b := by
  rintro v rfl b rfl
  exact hb b hacc.2.symm

theorem chooseAccess_equi {label : String} {eqs : List ((String × Option String) × Value)} {acc : Access}
    (h : chooseAccess t.tmeta label eqs = acc) :
    acc = .seq ∨ ∃ e ∈ eqs, columnMatches e.1 label t.tmeta.colnames = true ∧ throughEqui t e acc := by
  unfold chooseAccess at h
  simp only at h
  split at h
  · rename_i e he
    have hm := List.mem_filter.1 (List.mem_of_find?_eq_some he)
    subst h
    exact .inr ⟨e, hm.1, hm.2, by simpa using List.find?_some he, rfl⟩
  · split at h
    · rename_i e he
      have hm := List.mem_filter.1 (List.mem_of_find?_eq_some he)
      subst h
      have hi := List.find?_some he
      exact .inr ⟨e, hm.1, hm.2, hi, rfl, rfl⟩
    · exact .inl h.symm

theorem chooseShortcut_equi {eqs : List ((String × Option String) × Value)} {acc : Access}
    (h : chooseShortcut t.tmeta eqs = some acc) :
    ∃ e ∈ eqs, columnMatches e.1 t.tmeta.name t.tmeta.colnames = true ∧ throughEqui t e acc := by
  obtain ⟨e, he, h⟩ := Option.map_eq_some_iff.1 h
  have hm := List.mem_filter.1 (List.mem_of_find?_eq_some he)
  refine ⟨e, hm.1, hm.2, ?_⟩
  split at h
  · rename_i hpk
    subst h
    exact ⟨hpk, rfl⟩
  · rename_i hpk
    subst h
    have hor := List.find?_some he
    simp only [hpk, decide_false, Bool.false_or] at hor
    exact ⟨hor, rfl, rfl⟩

end Access

/-! ### The two statements on one table -/

section Statements

variable {lib : PyLib} {db : Tables} {name : String} {t : Table} {w : Expr}

/-- The closure of an expression on a row of the table is `v`. -/
def EvalsTo (lib : PyLib) (t : Table) (c : Expr) (row : Row) (v : Value) : Prop :=
  ∃ f, compileExpr lib (singleScope t.tmeta.name t.tmeta) [] false c = .ok f ∧ f [some row] none = .ok v

/-- No equality conjunct compares with a boolean: the parser has no boolean literal. -/
def NoBoolLiteral (w : Expr) : Prop := ∀ e ∈ findEquiPredicates (flattenAnd w), ∀ b, e.2 ≠ .bool b

/-- DELETE and UPDATE touch the rows that SELECT shows, in the same order. -/
def WhereAgree (lib : PyLib) (db : Tables) (name : String) (t : Table) (w : Expr) : Prop :=
  ∃ sel del, selectStar lib db name w = .ok sel ∧ matchingRows lib t (some w) = .ok del ∧
    sel = del.map Prod.snd ∧ del.Sublist t.rows ∧ ∀ r ∈ t.rows, r ∈ del ↔ r.2 ∈ sel

/-- On no row do the conjuncts of an AND all count as true while one of them is not `True`. -/
def TruthyIsTrue (lib : PyLib) (t : Table) (w : Expr) : Prop :=
  ∀ r ∈ t.rows, (∃ x y, w = .binop .and x y) →
    (∀ c ∈ flattenAnd w, ∃ u, EvalsTo lib t c r.2 u ∧ u.truthy = true) →
    ∀ c ∈ flattenAnd w, EvalsTo lib t c r.2 (.bool true)

theorem filter_filter_of_imp {α : Type} {l : List α} {Q P : α → Bool} (h : ∀ a ∈ l, P a = true → Q a = true) :
    (l.filter Q).filter P = l.filter P := by
  rw [List.filter_filter]
  refine List.filter_congr fun a ha => ?_
  rw [Bool.and_eq_left_iff_imp]
  exact h a ha

/-- The rows a shortcut finds, when it leaves out no row on which WHERE is `True`. -/
theorem shortcut_covers {fn : Closure} (hcomp : compileExpr lib (singleScope t.tmeta.name t.tmeta) [] false w = .ok fn) :
    ∃ Q : Int × Row → Bool,
      ((chooseShortcut t.tmeta (findEquiPredicates (flattenAnd w))).bind (shortcutRows t)).getD t.rows = t.rows.filter Q ∧
      ∀ r ∈ t.rows, fn [some r.2] none = .ok (.bool true) → Q r = true := by
  obtain ⟨fns, hfns, hflat⟩ := flatten_compile hcomp
  rcases hs : (chooseShortcut t.tmeta (findEquiPredicates (flattenAnd w))).bind (shortcutRows t) with _ | l
  · exact ⟨fun _ => true, by simp, fun _ _ _ => rfl⟩
  · obtain ⟨acc, hacc, hl⟩ := Option.bind_eq_some_iff.1 hs
    obtain ⟨e, he, hm, hth⟩ := chooseShortcut_equi hacc
    obtain ⟨c, hc, hce⟩ := isEqui_of_mem he
    obtain ⟨i, hi⟩ := List.getElem?_of_mem hc
    obtain ⟨f, hfi, hf⟩ := forall₂_getElem? hfns hi
    have hb : ∀ v, acc = .pk v → ∀ b, v ≠ .bool b := by
      -- `coerce_pk` refuses a boolean, and then there is no shortcut
      rintro v rfl b rfl
      cases hl
    obtain ⟨Q, hQ, hcov⟩ := covers_of_equi hm hce hf hb hth (.inr hl)
    refine ⟨Q, hQ, fun r hr ht => ?_⟩
    obtain ⟨u, hu, hut⟩ := (hflat _ _ ht).truthy.1 rfl f (List.mem_of_getElem? hfi)
    exact hcov r hr u hu hut

theorem matchingRows_eq {fn : Closure} (hcomp : compileExpr lib (singleScope t.tmeta.name t.tmeta) [] false w = .ok fn)
    (hok : ∀ r ∈ t.rows, ∃ v, fn [some r.2] none = .ok v) :
    matchingRows lib t (some w) = .ok (t.rows.filter fun r => decide (fn [some r.2] none = .ok (.bool true))) := by
  set source := ((chooseShortcut t.tmeta (findEquiPredicates (flattenAnd w))).bind (shortcutRows t)).getD t.rows
    with hsource
  obtain ⟨Q, hQ, hcov⟩ := shortcut_covers hcomp
  rw [← hsource] at hQ
  have hrun : keepTrue (fun r : Int × Row => fn [some r.2] none) source =
      .ok (source.filter fun r => decide (fn [some r.2] none = .ok (.bool true))) := by
    refine keepTrue_eq fun r hr => hok r ?_
    rw [hQ] at hr
    exact (List.mem_filter.1 hr).1
  rw [hQ, filter_filter_of_imp fun r hr h => hcov r hr (of_decide_eq_true h), ← hQ] at hrun
  rw [matchingRows]
  simp only [← hsource, add_empty, bind, Except.bind, hcomp]
  exact hrun

theorem filterStage_single (srcs : List (String × TableMeta)) (c : Expr) : filterStage [srcs] c = 0 := by
  unfold filterStage
  simp only [List.length_singleton, Nat.sub_self, List.getLast?_singleton]
  split
  · simp only [List.findIdx?_cons, List.findIdx?_nil]
    split
    · split <;> rfl
    · rfl
  · rfl

theorem buildSelectPlan_single (hget : db.get name = .ok t) (alias? : Option String) :
    buildSelectPlan db ⟨name, alias?, [], some w⟩ = .ok ⟨t, alias?.getD name,
      chooseAccess t.tmeta (alias?.getD name) (findEquiPredicates (flattenAnd w)), [], (flattenAnd w).map (0, ·)⟩ := by
  have hfilter : ∀ srcs, ((flattenAnd w).filter fun c => decide (filterStage [srcs] c = 0)) = flattenAnd w :=
    fun srcs => List.filter_eq_self.2 fun c _ => by simp [filterStage_single]
  simp [buildSelectPlan, hget, SelectCore.baseAlias, SelectCore.conjuncts, planJoins, availSources, bind,
    Except.bind, pure, Except.pure, hfilter]

theorem stage_single (conjs : List Expr) (base : Table) (label : String) (access : Access) :
    (⟨base, label, access, [], conjs.map (0, ·)⟩ : Plan).stage 0 = conjs := by
  simp [Plan.stage, List.filter_map, Function.comp_def]

/-- The rows an access path finds, filtered, when it leaves out no row that passes the conjuncts. -/
theorem runPlan_single {label : String} {access : Access} {Q : Int × Row → Bool} {fn : Closure}
    (hok : ∀ r ∈ t.rows, ∃ v, fn [some r.2] none = .ok v) {fns : List Closure}
    (hfns : List.Forall₂ (fun c f => compileExpr lib (singleScope label t.tmeta) [] false c = .ok f) (flattenAnd w) fns)
    (hflat : ∀ parts v, fn parts none = .ok v → Flattened fns parts v) (hQ : access.scan t = t.rows.filter Q)
    (hcov : ∀ r ∈ t.rows, passes fns [some r.2] = .ok true → Q r = true) :
    runPlan lib ⟨t, label, access, [], (flattenAnd w).map (0, ·)⟩ = .ok (singleScope label t.tmeta,
      (t.rows.filter fun r => decide (passes fns [some r.2] = .ok true)).map fun r => [some r.2]) := by
  have hstage : applyStage lib (singleScope label t.tmeta) (flattenAnd w)
      ((access.scan t).map fun r => [some r.2]) = .ok (((access.scan t).map fun r => [some r.2]).filter
        fun parts => decide (passes fns parts = .ok true)) := by
    refine applyStage_eq hfns fun parts hp => ?_
    obtain ⟨r, hr, rfl⟩ := List.mem_map.1 hp
    rw [hQ] at hr
    obtain ⟨v, hv⟩ := hok r (List.mem_filter.1 hr).1
    obtain ⟨⟨b, hb, -⟩, -⟩ := hflat _ _ hv
    exact ⟨b, hb⟩
  have hkept : (((access.scan t).map fun r => [some r.2]).filter fun parts => decide (passes fns parts = .ok true)) =
      (t.rows.filter fun r => decide (passes fns [some r.2] = .ok true)).map fun r => [some r.2] := by
    rw [List.filter_map, hQ, Function.comp_def,
      filter_filter_of_imp fun r hr h => hcov r hr (of_decide_eq_true h)]
  simp only [bind, Except.bind, runPlan, add_empty, stage_single, hstage, hkept, runJoins]

/-- The access path of the planner leaves out no row that passes the conjuncts. -/
theorem chooseAccess_covers {label : String} (hb : NoBoolLiteral w) {fns : List Closure}
    (hfns : List.Forall₂ (fun c f => compileExpr lib (singleScope label t.tmeta) [] false c = .ok f) (flattenAnd w) fns) :
    ∃ Q : Int × Row → Bool,
      (chooseAccess t.tmeta label (findEquiPredicates (flattenAnd w))).scan t = t.rows.filter Q ∧
        ∀ r ∈ t.rows, passes fns [some r.2] = .ok true → Q r = true := by
  generalize haccess : chooseAccess t.tmeta label (findEquiPredicates (flattenAnd w)) = access
  rcases chooseAccess_equi haccess with hseq | ⟨e, he, hm, hth⟩
  · exact ⟨fun _ => true, by simp [hseq, Access.scan], fun _ _ _ => rfl⟩
  · obtain ⟨c, hc, hce⟩ := isEqui_of_mem he
    obtain ⟨i, hi⟩ := List.getElem?_of_mem hc
    obtain ⟨f, hfi, hf⟩ := forall₂_getElem? hfns hi
    obtain ⟨Q, hQ, hcov⟩ := covers_of_equi hm hce hf (pk_not_bool (hb e he) hth) hth (.inl rfl)
    refine ⟨Q, hQ, fun r hr hp => ?_⟩
    exact hcov r hr _ (passes_true.1 hp f (List.mem_of_getElem? hfi)) rfl

theorem selectContexts_single (hget : db.get name = .ok t) (hname : t.tmeta.name = name) {fn : Closure}
    (hok : ∀ r ∈ t.rows, ∃ v, fn [some r.2] none = .ok v) (hb : NoBoolLiteral w) {fns : List Closure}
    (hfns : List.Forall₂ (fun c f => compileExpr lib (singleScope t.tmeta.name t.tmeta) [] false c = .ok f)
      (flattenAnd w) fns) (hflat : ∀ parts v, fn parts none = .ok v → Flattened fns parts v) :
    selectContexts lib db ⟨name, none, [], some w⟩ = .ok (singleScope t.tmeta.name t.tmeta,
      (t.rows.filter fun r => decide (passes fns [some r.2] = .ok true)).map fun r => [some r.2]) := by
  subst hname
  obtain ⟨Q, hQ, hcov⟩ := chooseAccess_covers hb hfns
  rw [selectContexts, buildSelectPlan_single hget]
  exact runPlan_single hok hfns hflat hQ hcov

/-- `_matching_rows` without a shortcut. -/
def matchingRowsSeq (lib : PyLib) (t : TableData) (w : Expr) : Except PyError (List (Int × Row)) := do
  let scope ← Scope.empty.add t.tmeta.name t.tmeta
  let whereFn ← compileExpr lib scope [] false w
  keepTrue (fun r => whereFn [some r.2] none) t.rows

/-- WHERE is evaluated on every row of the table, under the given label, without raising. -/
def NeverRaises (lib : PyLib) (t : Table) (label : String) (w : Expr) : Prop :=
  ∃ fn, compileExpr lib (singleScope label t.tmeta) [] false w = .ok fn ∧
    ∀ r ∈ t.rows, ∃ v, fn [some r.2] none = .ok v

/-- Access paths are invisible: in DELETE and UPDATE, and in a SELECT on one table. -/
theorem access_invisible (lib : PyLib) (t : Table) (w : Expr) (hb : NoBoolLiteral w) :
    (NeverRaises lib t t.tmeta.name w → ∃ rows, matchingRows lib t (some w) = .ok rows ∧
      matchingRowsSeq lib t w = .ok rows) ∧
    ∀ (db : Tables) (name : String) (alias? : Option String), db.get name = .ok t →
      NeverRaises lib t (alias?.getD name) w → ∃ plan kept, buildSelectPlan db ⟨name, alias?, [], some w⟩ = .ok plan ∧
        runPlan lib plan = .ok kept ∧ runPlan lib { plan with access := .seq } = .ok kept := by
  constructor
  · rintro ⟨fn, hcomp, hok⟩
    refine ⟨_, matchingRows_eq hcomp hok, ?_⟩
    rw [matchingRowsSeq, add_empty]
    simp only [bind, Except.bind, hcomp]
    exact keepTrue_eq hok
  · rintro db name alias? hget ⟨fn, hcomp, hok⟩
    obtain ⟨fns, hfns, hflat⟩ := flatten_compile hcomp
    obtain ⟨Q, hQ, hcov⟩ := chooseAccess_covers hb hfns
    refine ⟨_, _, buildSelectPlan_single hget alias?, runPlan_single hok hfns hflat hQ hcov, ?_⟩
    refine runPlan_single hok hfns hflat (Q := fun _ => true) ?_ fun _ _ _ => rfl
    simp [Access.scan]

/-- When the fast path answers, WHERE is an equality of the primary key with a literal. -/
theorem pkFastPathStar_eq {label : String} {rows : List Row} (h : pkFastPathStar t label (some w) = some rows) :
    ∃ e key, IsEqui w e ∧ (e.1.2 = none ∨ e.1.2 = some label) ∧ some e.1.1 = t.tmeta.pkColumn ∧
      coercePk e.2 = .ok key ∧ rows = (t.search key).toList := by
  have hlookup : ∀ name table v, pkFastPathStar.lookup t label name table v = some rows →
      (table = none ∨ table = some label) ∧ some name = t.tmeta.pkColumn ∧
        ∃ key, coercePk v = .ok key ∧ rows = (t.search key).toList := by
    intro name table v h
    unfold pkFastPathStar.lookup at h
    split at h
    · rename_i hc
      split at h
      · cases h
      · rename_i key hk
        exact ⟨hc.1, hc.2, key, hk, (Option.some.inj h).symm⟩
    · cases h
  unfold pkFastPathStar at h
  split at h
  · rename_i name table v hw
    obtain ⟨ht, hp, key, hk, hr⟩ := hlookup _ _ _ h
    exact ⟨((name, table), v), key, .inl (Option.some.inj hw), ht, hp, hk, hr⟩
  · rename_i v name table hw
    obtain ⟨ht, hp, key, hk, hr⟩ := hlookup _ _ _ h
    exact ⟨((name, table), v), key, .inr (Option.some.inj hw), ht, hp, hk, hr⟩
  · cases h

theorem flattenAnd_equi {e : (String × Option String) × Value} (h : IsEqui w e) : flattenAnd w = [w] := by
  rcases h with rfl | rfl <;> rfl

theorem findEqui_single {e : (String × Option String) × Value} (h : IsEqui w e) :
    findEquiPredicates (flattenAnd w) = [e] := by
  rw [flattenAnd_equi h]
  rcases h with rfl | rfl <;> rfl

theorem columnMatches_pk {m : TableMeta} {label : String} {col : String × Option String}
    (ht : col.2 = none ∨ col.2 = some label) (hpk : some col.1 = m.pkColumn) :
    columnMatches col label m.colnames = true := by
  have hmem : col.1 ∈ m.colnames := by
    obtain ⟨c, hc, e⟩ := Option.map_eq_some_iff.1 hpk.symm
    exact e ▸ List.mem_map_of_mem (List.mem_of_find?_eq_some hc)
  unfold columnMatches
  rcases ht with ht | ht <;> simp [ht, hmem]

/-- A conjunct of a WHERE expression that is no AND is the expression itself. -/
theorem fns_single {scope : Scope} {fn : Closure} {fns : List Closure} (hw : flattenAnd w = [w])
    (hcomp : compileExpr lib scope [] false w = .ok fn)
    (hfns : List.Forall₂ (fun c f => compileExpr lib scope [] false c = .ok f) (flattenAnd w) fns) : fns = [fn] := by
  rw [hw] at hfns
  rcases hfns with _ | ⟨hf, _ | _⟩
  rw [hcomp] at hf
  cases hf
  rfl

theorem not_bool_of_coercePk {v : Value} {key : Int} (h : coercePk v = .ok key) : ∀ b, v ≠ .bool b := by
  rintro b rfl
  cases h

/-- An equality of the primary key with `key` is `True` on the row with the rowid `key` only. -/
theorem filter_passes_pk {label : String} {e : (String × Option String) × Value} {key : Int}
    (htab : e.1.2 = none ∨ e.1.2 = some label) (he : IsEqui w e) (hpk : some e.1.1 = t.tmeta.pkColumn)
    (hkey : coercePk e.2 = .ok key) {fn : Closure}
    (hcomp : compileExpr lib (singleScope label t.tmeta) [] false w = .ok fn) :
    (t.rows.filter fun r => decide (passes [fn] [some r.2] = .ok true)) = t.rows.filter fun r => decide (r.1 = key) := by
  obtain ⟨j, hj, hval⟩ := equi_value (columnMatches_pk htab hpk) he hcomp
  refine List.filter_congr fun r hr => decide_eq_decide.2 ?_
  have hx := t.pk_eq j (pkIndex_of_pkColumn t.colnames_nodup hpk hj) r hr
  have hne : e.2 ≠ .none := by
    intro hn
    rw [hn] at hkey
    cases hkey
  rw [passes_true, List.forall_mem_singleton, hval r.2 _ hx, if_neg (by simp [hne]), Except.ok.injEq,
    Value.bool.injEq, ← coercePk_iff (not_bool_of_coercePk hkey), hkey, Except.ok.injEq, eq_comm]

/-- The rows of the SELECT are those on which every conjunct is `True`. -/
theorem selectStar_eq (hget : db.get name = .ok t) (hname : t.tmeta.name = name) {fn : Closure}
    (hcomp : compileExpr lib (singleScope t.tmeta.name t.tmeta) [] false w = .ok fn)
    (hok : ∀ r ∈ t.rows, ∃ v, fn [some r.2] none = .ok v) (hb : NoBoolLiteral w) {fns : List Closure}
    (hfns : List.Forall₂ (fun c f => compileExpr lib (singleScope t.tmeta.name t.tmeta) [] false c = .ok f)
      (flattenAnd w) fns) (hflat : ∀ parts v, fn parts none = .ok v → Flattened fns parts v) :
    selectStar lib db name w =
      .ok ((t.rows.filter fun r => decide (passes fns [some r.2] = .ok true)).map Prod.snd) := by
  rw [selectStar, hget]
  simp only [bind, Except.bind]
  rcases hfast : pkFastPathStar t name (some w) with _ | rows
  · simp only [selectContexts_single hget hname hok hb hfns hflat, pure, Except.pure, List.map_map]
    congr 1
    refine List.map_congr_left fun r hr => ?_
    have hwidth := t.width r (List.mem_filter.1 hr).1
    simp [starRow, singleScope, ← hwidth]
  · obtain ⟨e, key, he, htab, hpk, hkey, rfl⟩ := pkFastPathStar_eq hfast
    obtain rfl := fns_single (flattenAnd_equi he) hcomp hfns
    rw [filter_passes_pk (hname ▸ htab) he hpk hkey hcomp, ← t.filter_search key]
    simp [pure, Except.pure, Function.comp_def]

theorem truthy_and {scope : Scope} {x y : Expr} {fn : Closure}
    (h : compileExpr lib scope [] false (.binop .and x y) = .ok fn) {parts : Parts} {v : Value}
    (hv : fn parts none = .ok v) (ht : v.truthy = true) : v = .bool true := by
  simp only [compileExpr] at h
  obtain ⟨lfn, -, h⟩ := do_eq_ok.1 h
  obtain ⟨rfn, -, h⟩ := do_eq_ok.1 h
  cases h
  obtain ⟨l, -, ⟨-, -, rfl⟩ | ⟨r, -, -, -, hb⟩⟩ := andFn_ok hv
  · cases ht
  · exact hb ht

/-- The conjuncts have the property exactly when their closures do. -/
theorem forall_evalsTo {fns : List Closure} {row : Row} {p : Value → Prop}
    (hfns : List.Forall₂ (fun c f => compileExpr lib (singleScope t.tmeta.name t.tmeta) [] false c = .ok f)
      (flattenAnd w) fns) :
    (∀ c ∈ flattenAnd w, ∃ u, EvalsTo lib t c row u ∧ p u) ↔ ∀ f ∈ fns, ∃ u, f [some row] none = .ok u ∧ p u := by
  constructor
  · intro h f hf
    obtain ⟨i, hi⟩ := List.getElem?_of_mem hf
    obtain ⟨c, hc, hcf⟩ := forall₂_getElem?' hfns hi
    obtain ⟨u, ⟨f', hf', hu⟩, hp⟩ := h c (List.mem_of_getElem? hc)
    rw [hcf] at hf'
    cases hf'
    exact ⟨u, hu, hp⟩
  · intro h c hc
    obtain ⟨i, hi⟩ := List.getElem?_of_mem hc
    obtain ⟨f, hf, hcf⟩ := forall₂_getElem? hfns hi
    obtain ⟨u, hu, hp⟩ := h f (List.mem_of_getElem? hf)
    exact ⟨u, ⟨f, hcf, hu⟩, hp⟩

/-- SELECT and DELETE/UPDATE agree on a WHERE expression exactly when truthy conjuncts are `True`. -/
theorem whereAgree_iff (lib : PyLib) (db : Tables) (name : String) (t : Table) (w : Expr)
    (hget : db.get name = .ok t) (hname : t.tmeta.name = name) {fn : Closure}
    (hcomp : compileExpr lib (singleScope t.tmeta.name t.tmeta) [] false w = .ok fn)
    (hok : ∀ r ∈ t.rows, ∃ v, fn [some r.2] none = .ok v) (hb : NoBoolLiteral w) :
    WhereAgree lib db name t w ↔ TruthyIsTrue lib t w := by
  obtain ⟨fns, hfns, hflat⟩ := flatten_compile hcomp
  have hsel := selectStar_eq hget hname hcomp hok hb hfns hflat
  have hdel := matchingRows_eq hcomp hok
  set P : Int × Row → Bool := fun r => decide (passes fns [some r.2] = .ok true) with hP
  set Q : Int × Row → Bool := fun r => decide (fn [some r.2] none = .ok (.bool true)) with hQ
  have hPQ : ∀ r ∈ t.rows, P r = true → Q r = true := by
    intro r hr hp
    obtain ⟨v, hv⟩ := hok r hr
    obtain ⟨⟨b, hb, hbv⟩, -⟩ := hflat _ _ hv
    have htrue : b = true := by simpa [hP, hb] using hp
    simp [hQ, hv, hbv htrue]
  have hagree : WhereAgree lib db name t w ↔ ∀ r ∈ t.rows, Q r = true → P r = true := by
    constructor
    · rintro ⟨sel, del, hs, hd, -, -, hiff⟩ r hr hq
      rw [hsel, Except.ok.injEq] at hs
      rw [hdel, Except.ok.injEq] at hd
      subst hs hd
      obtain ⟨r', hr', e⟩ := List.mem_map.1 ((hiff r hr).1 (List.mem_filter.2 ⟨hr, hq⟩))
      have hp := (List.mem_filter.1 hr').2
      simpa [hP, e] using hp
    · intro h
      have heq : t.rows.filter P = t.rows.filter Q := List.filter_congr fun r hr => by
        rw [Bool.eq_iff_iff]
        exact ⟨hPQ r hr, h r hr⟩
      refine ⟨_, _, hsel, hdel, by rw [heq], List.filter_sublist, fun r hr => ?_⟩
      constructor
      · intro hm
        exact List.mem_map.2 ⟨r, heq ▸ hm, rfl⟩
      · intro hm
        obtain ⟨r', hr', e⟩ := List.mem_map.1 hm
        have hp := (List.mem_filter.1 hr').2
        exact List.mem_filter.2 ⟨hr, hPQ r hr (by simpa [hP, e] using hp)⟩
  rw [hagree]
  constructor
  · rintro h r hr ⟨x, y, rfl⟩ ht c hc
    obtain ⟨v, hv⟩ := hok r hr
    have htrue := truthy_and hcomp hv ((hflat _ _ hv).truthy.2 ((forall_evalsTo hfns).1 ht))
    have hpass : passes fns [some r.2] = .ok true := of_decide_eq_true (h r hr (by simp [hQ, hv, htrue]))
    obtain ⟨u, hu, rfl⟩ := (forall_evalsTo (p := (· = .bool true)) hfns).2
      (fun f hf => ⟨_, passes_true.1 hpass f hf, rfl⟩) c hc
    exact hu
  · intro h r hr hq
    have hv : fn [some r.2] none = .ok (.bool true) := of_decide_eq_true hq
    refine decide_eq_true (passes_true.2 fun f hf => ?_)
    by_cases hand : ∃ x y, w = .binop .and x y
    · have ht := h r hr hand ((forall_evalsTo hfns).2 ((hflat _ _ hv).truthy.1 rfl))
      obtain ⟨u, hu, rfl⟩ := (forall_evalsTo (p := (· = .bool true)) hfns).1
        (fun c hc => ⟨_, ht c hc, rfl⟩) f hf
      exact hu
    · have hsingle : flattenAnd w = [w] := flattenAnd.eq_2 w fun x y e => hand ⟨x, y, e⟩
      obtain rfl := fns_single hsingle hcomp hfns
      rw [List.mem_singleton.1 hf]
      exact hv

/-! `SELECT * FROM t WHERE a AND b = 1` shows nothing of the row `(5, 1)`; DELETE removes it. -/

/-- A table with columns `a`, `b` and the row `(5, 1)`. -/
def truthyTable : Table where
  tmeta := ⟨"t", [⟨"a", .int, false⟩, ⟨"b", .int, false⟩], 1, 1, 2, []⟩
  rows := [(1, [.int 5, .int 1])]
  index := fun _ => none
  colnames_nodup := by decide
  ascending := by decide
  width := by decide
  pk_eq := by
    intro i h
    have hnone : TableMeta.pkIndex ⟨"t", [⟨"a", .int, false⟩, ⟨"b", .int, false⟩], 1, 1, 2, []⟩ = none := by decide
    rw [hnone] at h
    cases h
  index_agrees := by simp

/-- `str` of a float and case folding, as far as the examples need them. -/
def plainLib : PyLib := ⟨fun _ => "nan", fun a b => decide (a = b)⟩

def truthyWhere : Expr := .binop .and (.column "a" none) (.binop .eq (.column "b" none) (.literal (.int 1)))

theorem not_whereAgree_truthy :
    Tables.get [truthyTable] "t" = .ok truthyTable ∧ NoBoolLiteral truthyWhere ∧
      (∃ fn, compileExpr plainLib (singleScope "t" truthyTable.tmeta) [] false truthyWhere = .ok fn ∧
        ∀ r ∈ truthyTable.rows, ∃ v, fn [some r.2] none = .ok v) ∧
      ¬ WhereAgree plainLib [truthyTable] "t" truthyTable truthyWhere := by
  have hsel : selectStar plainLib [truthyTable] "t" truthyWhere = .ok [] := by decide +kernel
  have hdel : matchingRows plainLib truthyTable (some truthyWhere) = .ok [(1, [.int 5, .int 1])] := by
    decide +kernel
  refine ⟨?_, ?_, ⟨_, rfl, ?_⟩, ?_⟩
  · have hname : "t".toLower = "t" := by decide +kernel
    simp [Tables.get, truthyTable, hname]
  · intro e he b
    simp only [truthyWhere, flattenAnd, List.cons_append, List.nil_append, findEquiPredicates, List.filterMap_cons,
      List.filterMap_nil, List.mem_singleton] at he
    rw [he]
    simp
  · intro r hr
    obtain rfl := List.mem_singleton.1 hr
    exact ⟨.bool true, by decide +kernel⟩
  · rintro ⟨sel, del, hs, hd, h, -, -⟩
    rw [hsel, Except.ok.injEq] at hs
    rw [hdel, Except.ok.injEq] at hd
    rw [← hs, ← hd] at h
    cases h

theorem whereAgree_iff_truthy :
    WhereAgree plainLib [truthyTable] "t" truthyTable (.column "a" none) ↔
      TruthyIsTrue plainLib truthyTable (.column "a" none) := by
  refine whereAgree_iff plainLib [truthyTable] "t" truthyTable (.column "a" none) ?_ rfl
    (rfl : compileExpr plainLib (singleScope "t" truthyTable.tmeta) [] false (.column "a" none) = .ok (readCol 0 0)) ?_ ?_
  · have hname : "t".toLower = "t" := by decide +kernel
    simp [Tables.get, truthyTable, hname]
  · intro r hr
    obtain rfl := List.mem_singleton.1 hr
    exact ⟨.int 5, rfl⟩
  · intro e he
    simp [flattenAnd, findEquiPredicates] at he

/-! The rows of a table with the primary key `id` and an index on `b`. -/

def keyedMeta : TableMeta := ⟨"t", [⟨"id", .int, true⟩, ⟨"b", .text, false⟩], 1, 3, 4, [("b", "i")]⟩

def keyedRows : List (Int × Row) := [(1, [.int 1, .str "x"]), (2, [.int 2, .str "y"]), (3, [.int 3, .str "x"])]

def keyedBuckets : Buckets Int := [(.str "x", [1, 3]), (.str "y", [2])]

theorem agrees_keyedBuckets : IndexAgrees keyedMeta keyedRows "b" keyedBuckets where
  mem_iff j hj v rid := by
    obtain rfl : j = 1 := by
      have hone : keyedMeta.colnames.idxOf? "b" = some 1 := by decide
      exact Option.some.inj (hj.symm.trans hone)
    have hstr : ∀ a : String, (Value.str a).pyEq v = true ↔ v = .str a := by
      intro a
      cases v <;> simp [Value.pyEq, Value.ext, eq_comm]
    have hrows : (∃ row x, (rid, row) ∈ keyedRows ∧ row[1]? = some x ∧ x ≠ .none ∧ x.pyEq v = true) ↔
        (rid = 1 ∨ rid = 3) ∧ v = .str "x" ∨ rid = 2 ∧ v = .str "y" := by
      constructor
      · rintro ⟨row, x, hm, hx, -, he⟩
        simp only [keyedRows, List.mem_cons, Prod.mk.injEq, List.not_mem_nil, or_false] at hm
        rcases hm with ⟨rfl, rfl⟩ | ⟨rfl, rfl⟩ | ⟨rfl, rfl⟩ <;> obtain rfl := Option.some.inj hx <;> simp [(hstr _).1 he]
      · rintro (⟨rfl | rfl, rfl⟩ | ⟨rfl, rfl⟩)
        · exact ⟨_, .str "x", .head _, rfl, by simp, (hstr _).2 rfl⟩
        · exact ⟨_, .str "x", .tail _ (.tail _ (.head _)), rfl, by simp, (hstr _).2 rfl⟩
        · exact ⟨_, .str "y", .tail _ (.head _), rfl, by simp, (hstr _).2 rfl⟩
    rw [hrows]
    by_cases hx : v = .str "x"
    · have hget : keyedBuckets.get (.str "x") = [1, 3] := by decide
      rw [hx, hget]
      simp
    by_cases hy : v = .str "y"
    · have hget : keyedBuckets.get (.str "y") = [2] := by decide
      rw [hy, hget]
      simp
    · have hget : keyedBuckets.get v = [] := by simp [Buckets.get, keyedBuckets, hstr, hx, hy]
      rw [hget]
      simp [hx, hy]
  nodup v := by
    rw [Buckets.get]
    split
    · rename_i e he
      have := List.mem_of_find?_eq_some he
      simp only [keyedBuckets, List.mem_cons, List.not_mem_nil, or_false] at this
      rcases this with rfl | rfl <;> simp
    · simp

def keyedTable : Table where
  tmeta := keyedMeta
  rows := keyedRows
  index col := if col = "b" then some keyedBuckets else none
  colnames_nodup := by decide
  ascending := by decide
  width := by decide
  pk_eq := by
    have hpk : keyedMeta.pkIndex = some 0 := by decide
    intro i hi r hr
    obtain rfl := Option.some.inj (hi.symm.trans hpk)
    simp only [keyedRows, List.mem_cons, List.not_mem_nil, or_false] at hr
    rcases hr with rfl | rfl | rfl <;> rfl
  index_agrees := by
    intro col hcol
    obtain rfl : col = "b" := by
      by_contra hne
      simp [keyedMeta, hne] at hcol
    exact ⟨_, if_pos rfl, agrees_keyedBuckets⟩

/-- `WHERE col = v`. -/
def keyedWhere (col : String) (v : Value) : Expr := .binop .eq (.column col none) (.literal v)

/-- A lookup of the primary key and one in an index show what the sequential scan shows. -/
theorem access_invisible_keyed :
    (∃ rows, matchingRows plainLib keyedTable (some (keyedWhere "id" (.int 2))) = .ok rows ∧
      matchingRowsSeq plainLib keyedTable (keyedWhere "id" (.int 2)) = .ok rows) ∧
    (∃ rows, matchingRows plainLib keyedTable (some (keyedWhere "b" (.str "x"))) = .ok rows ∧
      matchingRowsSeq plainLib keyedTable (keyedWhere "b" (.str "x")) = .ok rows) ∧
    (∃ plan kept, buildSelectPlan [keyedTable] ⟨"t", none, [], some (keyedWhere "id" (.int 2))⟩ = .ok plan ∧
      plan.access = .pk (.int 2) ∧ runPlan plainLib plan = .ok kept ∧
        runPlan plainLib { plan with access := .seq } = .ok kept) ∧
    ∃ plan kept, buildSelectPlan [keyedTable] ⟨"t", none, [], some (keyedWhere "b" (.str "x"))⟩ = .ok plan ∧
      plan.access = .index "b" (.str "x") ∧ runPlan plainLib plan = .ok kept ∧
        runPlan plainLib { plan with access := .seq } = .ok kept := by
  have hget : Tables.get [keyedTable] "t" = .ok keyedTable := by
    have hname : "t".toLower = "t" := by decide +kernel
    simp [Tables.get, keyedTable, keyedMeta, hname]
  have hbool : ∀ col v, (∀ b, v ≠ .bool b) → NoBoolLiteral (keyedWhere col v) := by
    intro col v hv e he b
    simp only [keyedWhere, flattenAnd, findEquiPredicates, List.filterMap_cons, List.filterMap_nil, List.mem_singleton] at he
    rw [he]
    exact hv b
  have hid : NeverRaises plainLib keyedTable "t" (keyedWhere "id" (.int 2)) := by
    refine ⟨_, rfl, fun r hr => ?_⟩
    simp only [keyedTable, keyedRows, List.mem_cons, List.not_mem_nil, or_false] at hr
    rcases hr with rfl | rfl | rfl
    · exact ⟨.bool false, by decide +kernel⟩
    · exact ⟨.bool true, by decide +kernel⟩
    · exact ⟨.bool false, by decide +kernel⟩
  have hx : NeverRaises plainLib keyedTable "t" (keyedWhere "b" (.str "x")) := by
    refine ⟨_, rfl, fun r hr => ?_⟩
    simp only [keyedTable, keyedRows, List.mem_cons, List.not_mem_nil, or_false] at hr
    rcases hr with rfl | rfl | rfl
    · exact ⟨.bool true, by decide +kernel⟩
    · exact ⟨.bool false, by decide +kernel⟩
    · exact ⟨.bool true, by decide +kernel⟩
  obtain ⟨hmatch, hselect⟩ := access_invisible plainLib keyedTable (keyedWhere "id" (.int 2)) (hbool _ _ (by simp))
  obtain ⟨hmatch', hselect'⟩ := access_invisible plainLib keyedTable (keyedWhere "b" (.str "x")) (hbool _ _ (by simp))
  obtain ⟨plan, kept, hplan, hkept, hseq⟩ := hselect _ "t" none hget hid
  obtain ⟨plan', kept', hplan', hkept', hseq'⟩ := hselect' _ "t" none hget hx
  have hpath : plan.access = .pk (.int 2) := by
    have h := buildSelectPlan_single (w := keyedWhere "id" (.int 2)) hget none
    rw [hplan] at h
    rw [Except.ok.inj h]
    decide +kernel
  have hpath' : plan'.access = .index "b" (.str "x") := by
    have h := buildSelectPlan_single (w := keyedWhere "b" (.str "x")) hget none
    rw [hplan'] at h
    rw [Except.ok.inj h]
    decide +kernel
  exact ⟨hmatch hid, hmatch' hx, ⟨plan, kept, hplan, hpath, hkept, hseq⟩, ⟨plan', kept', hplan', hpath', hkept', hseq'⟩⟩

end Statements

end LeafDb
