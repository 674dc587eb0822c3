import LeafDb.Sql.IndexRun

/-!
# Tables as relations

A table is a map from rowids to rows with a next rowid (`Relation`). `InsertedRows`, `Updated` and `Deleted`
say what the three statements do to that map; `Work.Sound` is what relates the counters, the primary key
and the lookups of the indexes to it. Each row a statement changes keeps `Work.Sound` (`putRow_spec`,
`updateRow_spec`, `deleteRow_spec`), and the loops over the rows add up to the relational statement.
-/

namespace LeafDb

/-- A table: its rows by rowid, and the rowid an automatic key takes. -/
structure Relation where
  rows : Int → Option Row
  nextRowid : Int

/-! ### The three statements on relations -/

section Statements

variable (m : TableMeta)

/-- The rowid and the row of one row of INSERT: the primary key, or the next rowid if there is none or it
is NULL, and the values at their columns. -/
def NewRow (declared : Option (List String)) (next : Int) (exprs : List Expr) (rid : Int) (row : Row) : Prop :=
  ∃ values full, exprs.mapM Database.literalValue = .ok values ∧ Database.fullRow m declared values = .ok full ∧
    match m.pkIndex with
    | none => rid = next ∧ Database.coerceRow m.types full = .ok row
    | some i => ∃ v, full[i]? = some v ∧ (if v = .none then rid = next else coercePk v = .ok rid) ∧
        Database.coerceRow m.types (full.set i (.int rid)) = .ok row

/-- INSERT adds its rows one after another, each under a rowid that is free. -/
inductive InsertedRows (declared : Option (List String)) : Relation → List (List Expr) → Relation → Prop
  | nil (R : Relation) : InsertedRows declared R [] R
  | cons {R R' : Relation} {exprs : List Expr} {rest : List (List Expr)} {rid : Int} {row : Row}
      (hrow : NewRow m declared R.nextRowid exprs rid row) (hfree : R.rows rid = none)
      (hrest : InsertedRows declared ⟨Function.update R.rows rid (some row), max R.nextRowid (rid + 1)⟩ rest R') :
      InsertedRows declared R (exprs :: rest) R'

variable (lib : PyLib)

/-- WHERE is `True` on a row; without a WHERE clause every row counts. -/
def WhereTrue (where? : Option Expr) (row : Row) : Prop :=
  ∀ w, where? = some w → ∃ fn, compileExpr lib (singleScope m.name m) [] false w = .ok fn ∧
    fn [some row] none = .ok (.bool true)

/-- The expression SET assigns to a column, the last one if there are several. -/
def assignedTo (col : String) : List (String × Expr) → Option Expr
  | [] => none
  | a :: rest => (assignedTo col rest).or (if a.1 = col then some a.2 else none)

/-- The row with the assigned columns computed from the old row. -/
def AssignedRow (assignments : List (String × Expr)) (row new : Row) : Prop :=
  new.length = row.length ∧ ∀ (j : Nat) (col : String), m.colnames[j]? = some col →
    match assignedTo col assignments with
    | none => new[j]? = row[j]?
    | some e => ∃ fn v t x, compileExpr lib (singleScope m.name m) [] false e = .ok fn ∧ fn [some row] none = .ok v ∧
        m.types[j]? = some t ∧ coerceValue t v = .ok x ∧ new[j]? = some x

/-- UPDATE replaces the rows on which WHERE is `True` and no others. -/
def Updated (stmt : Database.UpdateStmt) (R R' : Relation) : Prop :=
  R'.nextRowid = R.nextRowid ∧ ∀ rid,
    (R.rows rid = none → R'.rows rid = none) ∧
    ∀ row, R.rows rid = some row →
      (WhereTrue m lib stmt.where? row → ∃ new, AssignedRow m lib stmt.assignments row new ∧ R'.rows rid = some new) ∧
      (¬WhereTrue m lib stmt.where? row → R'.rows rid = some row)

/-- DELETE removes the rows on which WHERE is `True` and no others. -/
def Deleted (stmt : Database.DeleteStmt) (R R' : Relation) : Prop :=
  R'.nextRowid = R.nextRowid ∧ ∀ rid row, R'.rows rid = some row ↔ R.rows rid = some row ∧ ¬WhereTrue m lib stmt.where? row

end Statements

/-! ### The relation of a table -/

namespace Stored

variable {t : Stored}

/-- The map from rowid to decoded row. -/
def relation (t : Stored) : Relation :=
  ⟨fun rid => (Cells.search t.cells rid).bind fun blob => (decodeRow t.tmeta.types blob).toOption, t.tmeta.nextRowid⟩

theorem Ok.relation_eq_some (h : t.Ok) {rid : Int} {row : Row} : t.relation.rows rid = some row ↔ (rid, row) ∈ t.rows := by
  have hopt : ∀ blob, (decodeRow t.tmeta.types blob).toOption = some row ↔ decodeRow t.tmeta.types blob = .ok row := by
    intro blob
    rcases decodeRow t.tmeta.types blob with e | r <;> simp [Except.toOption]
  simp only [relation, Option.bind_eq_some_iff, hopt]
  refine exists_congr fun blob => and_congr_left fun _ => ?_
  constructor
  · intro hs
    obtain ⟨c, hc, rfl⟩ := Option.map_eq_some_iff.1 hs
    have hrid : c.1 = rid := by simpa using List.find?_some hc
    rw [← hrid]
    exact List.mem_of_find?_eq_some hc
  · intro hm
    obtain ⟨blob', hblob'⟩ := Option.isSome_iff_exists.1 (Cells.isSome_search.2 ⟨blob, hm⟩)
    obtain ⟨c, hc, rfl⟩ := Option.map_eq_some_iff.1 hblob'
    have hcm := List.mem_of_find?_eq_some hc
    have hrid : c.1 = rid := by simpa using List.find?_some hc
    rw [Cells.search, hc, Cells.eq_of_mem h.ascending hm (hrid ▸ hcm : (rid, c.2) ∈ t.cells)]
    rfl

theorem Ok.relation_eq_none (h : t.Ok) {rid : Int} : t.relation.rows rid = none ↔ ∀ c ∈ t.cells, c.1 ≠ rid := by
  constructor
  · rintro hn c hc rfl
    obtain ⟨row, hrow, -⟩ := h.typed c hc
    have := h.relation_eq_some.2 (⟨c.2, hc, hrow⟩ : (c.1, row) ∈ t.rows)
    rw [hn] at this
    cases this
  · intro hc
    rw [Option.eq_none_iff_forall_ne_some]
    intro row hrow
    obtain ⟨blob, hb, -⟩ := h.relation_eq_some.1 hrow
    exact hc _ hb rfl

/-- A relation is determined by its rows. -/
theorem Ok.relation_rows_eq (h : t.Ok) {f : Int → Option Row} (hf : ∀ rid row, (rid, row) ∈ t.rows ↔ f rid = some row) :
    t.relation.rows = f := by
  funext rid
  refine Option.ext fun row => ?_
  rw [h.relation_eq_some, hf]

theorem scanTable_keys {rows : List (Int × Row)} (hs : t.scanTable = .ok rows) :
    rows.map Prod.fst = t.cells.map Prod.fst := by
  have hall := mapM_eq_ok.1 hs
  generalize t.cells = cells at hall
  clear hs
  induction hall with
  | nil => rfl
  | cons hcr _ ih =>
    obtain ⟨row, -, hr⟩ := do_eq_ok.1 hcr
    cases hr
    rw [List.map_cons, List.map_cons, ih]

end Stored

/-! ### The invariant -/

/-- What relates a table's counters, primary key and indexes to its rows. -/
structure Work.Sound (w : Work) : Prop where
  rowCount : w.table.tmeta.rowCount = w.table.cells.length
  next : ∀ c ∈ w.table.cells, c.1 < w.table.tmeta.nextRowid
  colnames_nodup : w.table.tmeta.colnames.Nodup
  pk_int : ∀ i, w.table.tmeta.pkIndex = some i → w.table.tmeta.types[i]? = some .int
  pk_eq : ∀ i, w.table.tmeta.pkIndex = some i → ∀ r ∈ w.table.rows, r.2[i]? = some (.int r.1)
  finds : Finds w.table.tmeta w.table.rows w.indexes

namespace Work

variable {w w' : Work}

/-- What a statement reads of a sound table is a table of the planner. -/
theorem Sound.exists_table (h : w.Sound) (hok : w.Ok) {d : TableData} (hd : w.view = .ok d) :
    ∃ t : Table, t.toTableData = d := by
  obtain ⟨rows, hrows, rfl⟩ := Database.view_eq_ok hd
  obtain ⟨hmem, -⟩ := hok.table.scanTable hrows
  refine ⟨⟨_, h.colnames_nodup, ?_, fun r hr => ?_, fun i hi r hr => h.pk_eq i hi r ((hmem r).1 hr), fun col hcol => ?_⟩, rfl⟩
  · have hasc := List.pairwise_map.2 hok.table.ascending
    rw [← Stored.scanTable_keys hrows] at hasc
    exact List.pairwise_map.1 hasc
  · have := (hok.table.typed_row ((hmem r).1 hr)).length_eq
    rw [← this, TableMeta.types, List.length_map]
  · have hc : col ∈ w.table.tmeta.indexes.map Prod.fst := by
      obtain ⟨e, he, hec⟩ := List.lookup_isSome_iff.1 hcol
      rw [beq_iff_eq] at hec
      exact hec ▸ List.mem_map_of_mem he
    obtain ⟨idx, hidx⟩ := Option.isSome_iff_exists.1 ((hok.indexes.isSome_iff col).2 hc)
    refine ⟨idx, hidx, fun j hj v rid => ?_, Buckets.nodup_get (hok.indexes.ok col idx hidx).nodup⟩
    rw [h.finds col idx hidx j hj]
    simp only [hmem]

/-- `_matching_rows` yields the rows on which WHERE is `True`, each once. -/
theorem Sound.matched (h : w.Sound) (hok : w.Ok) {lib : PyLib} {where? : Option Expr} {matched : List (Int × Row)}
    (hm : (do matchingRows lib (← w.view) where?) = Except.ok matched) :
    ∀ r, r ∈ matched ↔ r ∈ w.table.rows ∧ WhereTrue w.table.tmeta lib where? r.2 := by
  obtain ⟨d, hd, hm⟩ := do_eq_ok.1 hm
  obtain ⟨t, rfl⟩ := h.exists_table hok hd
  obtain ⟨rows, hrows, ht⟩ := Database.view_eq_ok hd
  have hmem : ∀ r, r ∈ t.rows ↔ r ∈ w.table.rows := by
    rw [ht]
    exact (hok.table.scanTable hrows).1
  have hmeta : t.tmeta = w.table.tmeta := by rw [ht]
  rcases where? with _ | e
  · cases hm
    intro r
    rw [hmem, iff_self_and]
    rintro - w ⟨⟩
  rw [matchingRows] at hm
  obtain ⟨scope, hscope, hm⟩ := do_eq_ok.1 hm
  cases hscope
  obtain ⟨fn, hfn, hm⟩ := do_eq_ok.1 hm
  obtain ⟨Q, hQ, hcov⟩ := shortcut_covers (t := t) hfn
  rw [hQ] at hm
  rw [keepTrue_ok hm]
  intro r
  have htrue : WhereTrue w.table.tmeta lib (some e) r.2 ↔ fn [some r.2] none = .ok (.bool true) := by
    rw [← hmeta]
    constructor
    · intro hw
      obtain ⟨fn', hfn', hv⟩ := hw e rfl
      obtain rfl : fn = fn' := Except.ok.inj (hfn.symm.trans hfn')
      exact hv
    · rintro hv _ ⟨⟩
      exact ⟨fn, hfn, hv⟩
  rw [List.mem_filter, List.mem_filter, hmem, htrue, decide_eq_true_eq]
  constructor
  · rintro ⟨⟨hr, -⟩, hv⟩
    exact ⟨hr, hv⟩
  · rintro ⟨hr, hv⟩
    exact ⟨⟨hr, hcov r ((hmem r).2 hr) hv⟩, hv⟩

end Work

/-! ### Assignments -/

namespace Database

theorem pkColumn_of_pkIndex {m : TableMeta} {i : Nat} (h : m.pkIndex = some i) :
    ∃ c, m.colnames[i]? = some c ∧ m.pkColumn = some c := by
  rw [TableMeta.pkIndex, List.findIdx?_eq_some_iff_getElem] at h
  obtain ⟨hi, hpk, hfirst⟩ := h
  refine ⟨m.columns[i].name, by rw [TableMeta.colnames, List.getElem?_map, List.getElem?_eq_getElem hi]; rfl, ?_⟩
  rw [TableMeta.pkColumn, Option.map_eq_some_iff]
  refine ⟨m.columns[i], ?_, rfl⟩
  rw [List.find?_eq_some_iff_getElem]
  exact ⟨hpk, i, hi, rfl, fun k hk => by simpa using hfirst k hk⟩

theorem assignedTo_eq_none {col : String} {assignments : List (String × Expr)} (h : ∀ a ∈ assignments, a.1 ≠ col) :
    assignedTo col assignments = none := by
  induction assignments with
  | nil => rfl
  | cons a rest ih =>
    obtain ⟨ha, hrest⟩ := List.forall_mem_cons.1 h
    rw [assignedTo, ih hrest, if_neg ha]
    rfl

/-- An assignment and what it is compiled to. -/
def Compiled (lib : PyLib) (m : TableMeta) (a : String × Expr) (b : Assignment) : Prop :=
  m.columnIndex a.1 = .ok b.1 ∧ compileExpr lib (singleScope m.name m) [] false a.2 = .ok b.2

theorem compiled_of_compileAssignments {lib : PyLib} {m : TableMeta} {assignments : List (String × Expr)}
    {assigns : List Assignment} (h : compileAssignments lib m assignments = .ok assigns) :
    List.Forall₂ (Compiled lib m) assignments assigns := by
  obtain ⟨scope, hscope, h⟩ := do_eq_ok.1 h
  cases hscope
  refine (mapM_eq_ok.1 h).imp fun a b hab => ?_
  obtain ⟨i, hi, hab⟩ := do_eq_ok.1 hab
  obtain ⟨fn, hfn, hab⟩ := do_eq_ok.1 hab
  cases hab
  exact ⟨hi, hfn⟩

theorem getElem?_of_columnIndex {m : TableMeta} {name : String} {i : Nat} (h : m.columnIndex name = .ok i) :
    m.colnames[i]? = some name := by
  rw [TableMeta.columnIndex] at h
  rcases hidx : m.colnames.idxOf? name with _ | i'
  · rw [hidx] at h
    cases h
  · rw [hidx] at h
    cases h
    obtain ⟨hlt, hget, -⟩ := List.idxOf?_eq_some_iff.1 hidx
    rw [List.getElem?_eq_getElem hlt, hget]

/-- `assignedRow` computes every assigned column from the old row and keeps the others. -/
theorem assignedRow_spec {lib : PyLib} {m : TableMeta} {assignments : List (String × Expr)} {assigns : List Assignment}
    {row new : Row} (hnd : m.colnames.Nodup) (hlen : row.length = m.types.length)
    (hcomp : List.Forall₂ (Compiled lib m) assignments assigns) (h : assignedRow m.types assigns row = .ok new) :
    AssignedRow m lib assignments row new := by
  have hloop : ∀ cur : Row, cur.length = m.types.length →
      assigns.foldlM (assignOne m.types row) cur = Except.ok new →
      new.length = cur.length ∧ ∀ (j : Nat) (col : String), m.colnames[j]? = some col →
        match assignedTo col assignments with
        | none => new[j]? = cur[j]?
        | some e => ∃ fn v t x, compileExpr lib (singleScope m.name m) [] false e = .ok fn ∧ fn [some row] none = .ok v ∧
            m.types[j]? = some t ∧ coerceValue t v = .ok x ∧ new[j]? = some x := by
    clear h
    induction hcomp with
    | nil =>
      intro cur _ h
      cases h
      exact ⟨rfl, fun j col _ => rfl⟩
    | @cons a b assignments assigns hab _ ih =>
      intro cur hcur h
      rw [List.foldlM_cons] at h
      obtain ⟨cur', hcur', h⟩ := do_eq_ok.1 h
      obtain ⟨v, t, x, hv, ht, hx, rfl⟩ := assignOne_eq_ok hcur'
      obtain ⟨hlen', hcols⟩ := ih (cur.set b.1 x) (by rw [List.length_set, hcur]) h
      refine ⟨by rw [hlen', List.length_set], fun j col hj => ?_⟩
      have hcol := hcols j col hj
      have hb := getElem?_of_columnIndex hab.1
      rw [assignedTo]
      rcases hrest : assignedTo col assignments with _ | e
      · rw [hrest] at hcol
        by_cases hac : a.1 = col
        · rw [if_pos hac]
          have hbj : b.1 = j := by
            obtain ⟨hlt, hget⟩ := List.getElem?_eq_some_iff.1 hb
            obtain ⟨hlt', hget'⟩ := List.getElem?_eq_some_iff.1 hj
            exact (hnd.getElem_inj_iff).1 (hget.trans (hac.trans hget'.symm))
          subst hbj
          have hlt : b.1 < cur.length := hcur ▸ (List.getElem?_eq_some_iff.1 ht).1
          exact ⟨b.2, v, t, x, hab.2, hv, ht, hx, by rw [hcol, List.getElem?_set_self hlt]⟩
        · rw [if_neg hac]
          have hbj : b.1 ≠ j := by
            rintro rfl
            exact hac (Option.some.inj (hb.symm.trans hj))
          exact hcol.trans (List.getElem?_set_ne hbj)
      · rw [hrest] at hcol
        exact hcol
  exact hloop row hlen (assignedRow_eq.symm.trans h)

end Database

/-! ### One row -/

namespace Work

open Database

variable {w w' : Work}

theorem Sound.frame (h : w.Sound) {idxs : Indexes} (hf : ∀ c, idxs (w.table.tmeta.name, c) = w.indexes (w.table.tmeta.name, c)) :
    Work.Sound ⟨w.table, idxs⟩ :=
  ⟨h.rowCount, h.next, h.colnames_nodup, h.pk_int, h.pk_eq, h.finds.frame hf⟩

theorem Sound.putRow (h : w.Sound) (hok : w.Ok) {dup : PyError} {rid : Int} {row : Row} {blob : Bytes} {u : Unit}
    (hrow : List.Forall₂ HasType w.table.tmeta.types row) (hb : encodeRow w.table.tmeta.types row = .ok blob)
    (hpk : ∀ i, w.table.tmeta.pkIndex = some i → row[i]? = some (.int rid)) (hx : putRow dup rid row blob w = .ok u w') :
    w'.Sound := by
  obtain ⟨-, -, hrows, hmeta, hcells, hfinds⟩ := putRow_spec hok hrow hb hx
  refine ⟨?_, fun c hc => ?_, ?_, ?_, fun i hi r hr => ?_, hfinds h.finds⟩
  · rw [hmeta, hcells, List.orderedInsert_length]
    exact congrArg (· + 1) h.rowCount
  · rw [hcells, List.mem_orderedInsert] at hc
    rw [hmeta]
    rcases hc with rfl | hc
    · exact Int.lt_of_lt_of_le (Int.lt_succ _) (Int.le_max_right _ _)
    · exact Int.lt_of_lt_of_le (h.next c hc) (Int.le_max_left _ _)
  · rw [hmeta]
    exact h.colnames_nodup
  · rw [hmeta]
    exact h.pk_int
  · rw [hmeta] at hi
    rw [hrows] at hr
    rcases hr with rfl | hr
    · exact hpk i hi
    · exact h.pk_eq i hi r hr

theorem Sound.updateRow (h : w.Sound) (hok : w.Ok) {assigns : List Assignment} {r : Int × Row} (hr : r ∈ w.table.rows)
    (hpk : ∀ i new, w.table.tmeta.pkIndex = some i → assignedRow w.table.tmeta.types assigns r.2 = .ok new → new[i]? = r.2[i]?)
    (hx : updateRow assigns r w = .ok () w') : w'.Sound := by
  obtain ⟨new, hnew, -, hrows, hmeta, hkeys, hfinds⟩ := updateRow_spec hok hr hx
  refine ⟨?_, fun c hc => ?_, ?_, ?_, fun i hi q hq => ?_, hfinds h.finds⟩
  · have hlen := congrArg List.length hkeys
    rw [List.length_map, List.length_map] at hlen
    rw [hmeta, h.rowCount, hlen]
  · rw [hmeta]
    have hck := List.mem_map_of_mem (f := Prod.fst) hc
    rw [hkeys] at hck
    obtain ⟨c', hc', he⟩ := List.mem_map.1 hck
    exact he ▸ h.next c' hc'
  · rw [hmeta]
    exact h.colnames_nodup
  · rw [hmeta]
    exact h.pk_int
  · rw [hmeta] at hi
    rw [hrows] at hq
    rcases hq with rfl | ⟨hq, -⟩
    · exact (hpk i new hi hnew).trans (h.pk_eq i hi r hr)
    · exact h.pk_eq i hi q hq

theorem length_filter_ne {cells : List Cell} (ha : cells.Pairwise fun a b => a.1 < b.1) {key : Int} {value : Bytes}
    (hk : (key, value) ∈ cells) : (cells.filter fun c => decide (c.1 ≠ key)).length + 1 = cells.length := by
  induction cells with
  | nil => cases hk
  | cons c cells ih =>
    obtain ⟨hc, ha⟩ := List.pairwise_cons.1 ha
    rcases List.mem_cons.1 hk with rfl | hk
    · have hall : cells.filter (fun c => decide (c.1 ≠ key)) = cells :=
        List.filter_eq_self.2 fun c hcm => decide_eq_true (hc c hcm).ne'
      rw [List.filter_cons, if_neg (by simp), hall, List.length_cons]
    · have hne : c.1 ≠ key := (hc _ hk).ne
      rw [List.filter_cons, if_pos (decide_eq_true hne), List.length_cons, ih ha hk, List.length_cons]

theorem Sound.deleteRow (h : w.Sound) (hok : w.Ok) {r : Int × Row} (hr : r ∈ w.table.rows)
    (hx : deleteRow r w = .ok () w') : w'.Sound := by
  obtain ⟨-, hrows, hmeta, hcells, hfinds⟩ := deleteRow_spec hok hr hx
  refine ⟨?_, fun c hc => ?_, ?_, ?_, fun i hi q hq => ?_, hfinds h.finds⟩
  · obtain ⟨blob, hblob, -⟩ := hr
    have hlen := length_filter_ne hok.table.ascending hblob
    rw [hmeta, hcells]
    simp only [h.rowCount]
    omega
  · rw [hmeta]
    rw [hcells] at hc
    exact h.next c (List.mem_filter.1 hc).1
  · rw [hmeta]
    exact h.colnames_nodup
  · rw [hmeta]
    exact h.pk_int
  · rw [hmeta] at hi
    rw [hrows] at hq
    exact h.pk_eq i hi q hq.1

/-! ### INSERT -/

theorem assignRowid_eq_ok {m : TableMeta} {full full' : Row} {rid : Int} (h : assignRowid m full = .ok (rid, full')) :
    match m.pkIndex with
    | none => rid = m.nextRowid ∧ full' = full
    | some i => ∃ v, full[i]? = some v ∧ (if v = .none then rid = m.nextRowid else coercePk v = .ok rid) ∧
        full' = full.set i (.int rid) := by
  rw [assignRowid] at h
  rcases hpk : m.pkIndex with _ | i
  · simp only [hpk] at h
    cases h
    exact ⟨rfl, rfl⟩
  · simp only [hpk] at h
    rcases hv : full[i]? with _ | v
    · simp only [hv] at h
      cases h
    · simp only [hv] at h
      refine ⟨v, hv, ?_⟩
      split at h
      · rename_i hn
        cases h
        exact ⟨if_pos hn ▸ rfl, rfl⟩
      · rename_i hn
        obtain ⟨rid', hrid, h⟩ := do_eq_ok.1 h
        cases h
        rw [if_neg hn]
        exact ⟨hrid, rfl⟩

/-- The primary key of a new row is its rowid. -/
theorem pk_of_assignRowid (h : w.Sound) {full full' row : Row} {rid : Int}
    (ha : assignRowid w.table.tmeta full = .ok (rid, full')) (hc : coerceRow w.table.tmeta.types full' = .ok row) {i : Nat}
    (hi : w.table.tmeta.pkIndex = some i) : row[i]? = some (.int rid) := by
  have hrid := assignRowid_eq_ok ha
  rw [hi] at hrid
  obtain ⟨v, hv, -, rfl⟩ := hrid
  have hlt : i < full.length := (List.getElem?_eq_some_iff.1 hv).1
  obtain ⟨x, hx, hcx⟩ := forall₂_getElem? (mapM_eq_ok.1 hc)
    (List.getElem?_zip_eq_some.2 ⟨h.pk_int i hi, List.getElem?_set_self hlt⟩ : _ = some (ColType.int, Value.int rid))
  cases hcx
  exact hx

theorem insertRow_spec (h : w.Sound) (hok : w.Ok) {declared : Option (List String)} {width : Nat} {exprs : List Expr} {u : Unit}
    (hx : insertRow declared width exprs w = .ok u w') : w'.Sound ∧ Kept w w' ∧ ∃ rid row,
      NewRow w.table.tmeta declared w.table.tmeta.nextRowid exprs rid row ∧ (∀ c ∈ w.table.cells, c.1 ≠ rid) ∧
      w'.table.rows = Insert.insert (rid, row) w.table.rows ∧ w'.table.tmeta = { w.table.tmeta with
        nextRowid := max w.table.tmeta.nextRowid (rid + 1), rowCount := w.table.tmeta.rowCount + 1 } := by
  unfold insertRow at hx
  simp only [Exec.bind_eq_ok, Exec.guard_eq_ok, Exec.get_eq_ok, Exec.lift_eq_ok] at hx
  obtain ⟨-, _, _, ⟨rfl, rfl⟩, values, _, ⟨hvalues, rfl⟩, full, _, ⟨hfull, rfl⟩, ⟨rid, full'⟩, _, ⟨hrid, rfl⟩,
    row, _, ⟨hrow, rfl⟩, blob, _, ⟨hb, rfl⟩, -, hx⟩ := hx
  have hb := encodeChecked_eq_ok hb
  have htyped := typed_coerceRow hrow hb
  obtain ⟨hk, hnew, hrows, hmeta, -⟩ := putRow_spec hok htyped hb hx
  refine ⟨h.putRow hok htyped hb (fun i hi => pk_of_assignRowid h hrid hrow hi) hx, hk, rid, row,
    ⟨values, full, hvalues, hfull, ?_⟩, hnew, hrows, hmeta⟩
  have hspec := assignRowid_eq_ok hrid
  rcases hpk : w.table.tmeta.pkIndex with _ | i
  · rw [hpk] at hspec
    exact ⟨hspec.1, hspec.2 ▸ hrow⟩
  · rw [hpk] at hspec
    obtain ⟨v, hv, hspec, rfl⟩ := hspec
    exact ⟨v, hv, hspec, hrow⟩

theorem Sound.bulkRow (h : w.Sound) (hok : w.Ok) {full : Row} {u : Unit} (hx : bulkRow full w = .ok u w') : w'.Sound := by
  unfold Database.bulkRow at hx
  simp only [Exec.bind_eq_ok, Exec.guard_eq_ok, Exec.get_eq_ok, Exec.lift_eq_ok] at hx
  obtain ⟨_, _, ⟨rfl, rfl⟩, -, ⟨rid, full'⟩, _, ⟨hrid, rfl⟩, row, _, ⟨hrow, rfl⟩, blob, _, ⟨hb, rfl⟩, hx⟩ := hx
  have hb := encodeChecked_eq_ok hb
  exact h.putRow hok (typed_coerceRow hrow hb) hb (fun i hi => pk_of_assignRowid h hrid hrow hi) hx

/-- Only the columns of the catalog entry matter for what INSERT adds. -/
theorem inserted_of_counters {m : TableMeta} {declared : Option (List String)} {next : Int} {count : Nat} {R R' : Relation}
    {rows : List (List Expr)} (h : InsertedRows { m with nextRowid := next, rowCount := count } declared R rows R') :
    InsertedRows m declared R rows R' := by
  induction h with
  | nil R => exact .nil R
  | cons hrow hfree _ ih => exact .cons hrow hfree ih

theorem insertRows_spec {declared : Option (List String)} {width : Nat} {rows : List (List Expr)} {u : Unit} (h : w.Sound)
    (hok : w.Ok) (hx : rows.forM (insertRow declared width) w = .ok u w') :
    w'.Sound ∧ Kept w w' ∧ InsertedRows w.table.tmeta declared w.table.relation rows w'.table.relation := by
  induction rows generalizing w with
  | nil =>
    obtain ⟨-, rfl⟩ := Exec.pure_eq_ok.1 hx
    exact ⟨h, .refl hok, .nil _⟩
  | cons exprs rows ih =>
    obtain ⟨⟨⟩, v, hv, hx⟩ := Exec.bind_eq_ok.1 hx
    obtain ⟨hs, hk, rid, row, hnew, hfree, hrows, hmeta⟩ := insertRow_spec h hok hv
    obtain ⟨hs', hk', hins⟩ := ih hs hk.ok hx
    refine ⟨hs', hk.trans hk', .cons hnew (hok.table.relation_eq_none.2 hfree) ?_⟩
    rw [hmeta] at hins
    have hrel : v.table.relation = ⟨Function.update w.table.relation.rows rid (some row),
        max w.table.tmeta.nextRowid (rid + 1)⟩ := by
      have hnext : v.table.relation.nextRowid = max w.table.tmeta.nextRowid (rid + 1) := by
        change v.table.tmeta.nextRowid = _
        rw [hmeta]
      refine congrArg₂ Relation.mk (hk.ok.table.relation_rows_eq fun q r => ?_) hnext
      rw [hrows]
      by_cases hq : q = rid
      · subst hq
        rw [Function.update_self, Option.some.injEq]
        constructor
        · rintro (he | hm)
          · exact (congrArg Prod.snd he).symm
          · obtain ⟨blob, hb, -⟩ := hm
            exact absurd rfl (hfree _ hb)
        · rintro rfl
          exact .inl rfl
      · rw [Function.update_of_ne hq, hok.table.relation_eq_some]
        exact ⟨fun hm => hm.resolve_left fun he => hq (congrArg Prod.fst he), .inr⟩
    rw [hrel] at hins
    exact inserted_of_counters hins

/-! ### UPDATE and DELETE -/

theorem not_mem_keys {α : Type} {l l' : List (Int × α)} {r : Int × α} (hn : ((l ++ r :: l').map Prod.fst).Nodup) :
    ∀ q ∈ l, q.1 ≠ r.1 := by
  rw [List.map_append, List.map_cons] at hn
  exact fun q hq he => (List.nodup_append.1 hn).2.2 _ (List.mem_map_of_mem hq) _ List.mem_cons_self he

theorem updateRows_spec (h : w.Sound) (hok : w.Ok) {assigns : List Assignment} {matched : List (Int × Row)} {u : Unit}
    (hmem : ∀ r ∈ matched, r ∈ w.table.rows) (hn : (matched.map Prod.fst).Nodup)
    (hpk : ∀ i row new, w.table.tmeta.pkIndex = some i → row.length = w.table.tmeta.types.length →
      assignedRow w.table.tmeta.types assigns row = .ok new → new[i]? = row[i]?)
    (hx : matched.forM (updateRow assigns) w = .ok u w') :
    w'.Sound ∧ Kept w w' ∧ w'.table.tmeta = w.table.tmeta ∧
      (∀ r ∈ matched, ∃ new, assignedRow w.table.tmeta.types assigns r.2 = .ok new ∧ (r.1, new) ∈ w'.table.rows) ∧
      ∀ q, (∀ r ∈ matched, q.1 ≠ r.1) → (q ∈ w'.table.rows ↔ q ∈ w.table.rows) := by
  have hrun := Exec.forM_rule (f := updateRow assigns) (P := fun rest v => ∃ done, matched = done ++ rest ∧ v.Sound ∧ Kept w v ∧
    v.table.tmeta = w.table.tmeta ∧
    (∀ r ∈ done, ∃ new, assignedRow w.table.tmeta.types assigns r.2 = .ok new ∧ (r.1, new) ∈ v.table.rows) ∧
    ∀ q, (∀ r ∈ done, q.1 ≠ r.1) → (q ∈ v.table.rows ↔ q ∈ w.table.rows)) ?_
    ⟨[], rfl, h, .refl hok, rfl, List.forall_mem_nil _, fun q _ => Iff.rfl⟩ hx
  · obtain ⟨done, hdone, hs, hk, hmeta, hnew, hkeep⟩ := hrun
    rw [List.append_nil] at hdone
    subst hdone
    exact ⟨hs, hk, hmeta, hnew, hkeep⟩
  rintro r rest v v' ⟨done, rfl, hs, hk, hmeta, hnew, hkeep⟩ hv
  have hrw : r ∈ w.table.rows := hmem r (by simp)
  have hdone : ∀ q ∈ done, q.1 ≠ r.1 := not_mem_keys hn
  have hr : r ∈ v.table.rows := (hkeep r fun q hq => (hdone q hq).symm).2 hrw
  have hlen : r.2.length = w.table.tmeta.types.length := (hok.table.typed_row hrw).length_eq.symm
  obtain ⟨new, hassign, hk', hrows, hmeta', -, -⟩ := updateRow_spec hk.ok hr hv
  rw [hmeta] at hassign
  refine ⟨done ++ [r], by simp, hs.updateRow hk.ok hr (fun i new' hi hn' => ?_) hv, hk.trans hk', hmeta'.trans hmeta,
    fun q hq => ?_, fun q hq => ?_⟩
  · rw [hmeta] at hi hn'
    exact hpk i r.2 new' hi hlen hn'
  · rcases List.mem_append.1 hq with hq | hq
    · obtain ⟨new', h1, h2⟩ := hnew q hq
      exact ⟨new', h1, by rw [hrows]; exact .inr ⟨h2, hdone q hq⟩⟩
    · obtain rfl := List.mem_singleton.1 hq
      exact ⟨new, hassign, by rw [hrows]; exact .inl rfl⟩
  · have hqr : q.1 ≠ r.1 := hq r (by simp)
    rw [hrows, ← hkeep q fun d hd => hq d (by simp [hd])]
    exact ⟨fun hm => (hm.resolve_left fun he : q = (r.1, new) => hqr (he ▸ rfl)).1, fun hm => .inr ⟨hm, hqr⟩⟩

theorem deleteRows_spec (h : w.Sound) (hok : w.Ok) {matched : List (Int × Row)} {u : Unit}
    (hmem : ∀ r ∈ matched, r ∈ w.table.rows) (hn : (matched.map Prod.fst).Nodup)
    (hx : matched.forM deleteRow w = .ok u w') :
    w'.Sound ∧ Kept w w' ∧ w'.table.tmeta.nextRowid = w.table.tmeta.nextRowid ∧
      ∀ q, q ∈ w'.table.rows ↔ q ∈ w.table.rows ∧ ∀ r ∈ matched, q.1 ≠ r.1 := by
  have hrun := Exec.forM_rule (f := deleteRow) (P := fun rest v => ∃ done, matched = done ++ rest ∧ v.Sound ∧ Kept w v ∧
    v.table.tmeta.nextRowid = w.table.tmeta.nextRowid ∧
    ∀ q, q ∈ v.table.rows ↔ q ∈ w.table.rows ∧ ∀ r ∈ done, q.1 ≠ r.1) ?_
    ⟨[], rfl, h, .refl hok, rfl, fun q => by simp⟩ hx
  · obtain ⟨done, hdone, hs, hk, hnext, hkeep⟩ := hrun
    rw [List.append_nil] at hdone
    subst hdone
    exact ⟨hs, hk, hnext, hkeep⟩
  rintro r rest v v' ⟨done, rfl, hs, hk, hnext, hkeep⟩ hv
  have hr : r ∈ v.table.rows := (hkeep r).2 ⟨hmem r (by simp), fun q hq => (not_mem_keys hn q hq).symm⟩
  obtain ⟨hk', hrows, hmeta, -, -⟩ := deleteRow_spec hk.ok hr hv
  refine ⟨done ++ [r], by simp, hs.deleteRow hk.ok hr hv, hk.trans hk', by rw [hmeta]; exact hnext, fun q => ?_⟩
  rw [hrows]
  change (q ∈ v.table.rows ∧ q.1 ≠ r.1) ↔ _
  rw [hkeep]
  simp only [List.mem_append, List.mem_singleton]
  constructor
  · rintro ⟨⟨hq, hd⟩, hne⟩
    exact ⟨hq, fun d hd' => hd'.elim (hd d) fun he => he ▸ hne⟩
  · rintro ⟨hq, hd⟩
    exact ⟨⟨hq, fun d hd' => hd d (.inl hd')⟩, hd r (.inr rfl)⟩

theorem forM_eq_ok {α : Type} {f : α → Except PyError Unit} {as : List α} {u : PUnit} (h : as.forM f = .ok u) :
    ∀ a ∈ as, f a = .ok () := by
  induction as with
  | nil => exact List.forall_mem_nil _
  | cons a as ih =>
    obtain ⟨⟨⟩, ha, h⟩ := do_eq_ok.1 h
    exact List.forall_mem_cons.2 ⟨ha, ih h⟩

/-- The primary key is not among the columns UPDATE assigns. -/
theorem pk_not_assigned {m : TableMeta} {lib : PyLib} {assignments : List (String × Expr)} {row new : Row}
    (hcheck : ∀ a ∈ assignments, checkAssignment m a = .ok ()) {i : Nat} (hi : m.pkIndex = some i)
    (h : AssignedRow m lib assignments row new) : new[i]? = row[i]? := by
  obtain ⟨c, hc, hpk⟩ := pkColumn_of_pkIndex hi
  have hnone : assignedTo c assignments = none := assignedTo_eq_none fun a ha hac => by
    have hcheck := hcheck a ha
    rw [checkAssignment] at hcheck
    split at hcheck
    · cases hcheck
    · rw [if_pos (hac ▸ hpk.symm)] at hcheck
      cases hcheck
  have hcol := h.2 i c hc
  rw [hnone] at hcol
  exact hcol

theorem update_spec {lib : PyLib} {stmt : UpdateStmt} {matched : List (Int × Row)} {assigns : List Assignment} {u : Unit}
    (h : w.Sound) (hok : w.Ok) (hcheck : stmt.assignments.forM (checkAssignment w.table.tmeta) = .ok PUnit.unit)
    (hm : (do matchingRows lib (← w.view) stmt.where?) = Except.ok matched)
    (hassigns : compileAssignments lib w.table.tmeta stmt.assignments = .ok assigns)
    (hx : matched.forM (updateRow assigns) w = .ok u w') :
    w'.Sound ∧ Kept w w' ∧ Updated w.table.tmeta lib stmt w.table.relation w'.table.relation := by
  obtain ⟨hmem, hn⟩ := matched_mem hok hm
  have hmatched := h.matched hok hm
  have hcomp := compiled_of_compileAssignments hassigns
  have hcheck := forM_eq_ok hcheck
  obtain ⟨hs, hk, hmeta, hnew, hkeep⟩ := updateRows_spec h hok hmem hn (fun i row new hi hlen hn =>
    pk_not_assigned hcheck hi (assignedRow_spec h.colnames_nodup hlen hcomp hn)) hx
  refine ⟨hs, hk, congrArg TableMeta.nextRowid hmeta, fun rid => ⟨fun hnone => ?_, fun row hrow => ⟨fun ht => ?_, fun hf => ?_⟩⟩⟩
  · rw [Option.eq_none_iff_forall_ne_some] at hnone ⊢
    intro row hrow
    have hrw : ∀ row, (rid, row) ∉ w.table.rows := fun row hr => hnone row (hok.table.relation_eq_some.2 hr)
    have hne : ∀ r ∈ matched, rid ≠ r.1 := by
      rintro r hr rfl
      exact hrw r.2 (hmem r hr)
    exact hrw row ((hkeep (rid, row) hne).1 (hk.ok.table.relation_eq_some.1 hrow))
  · have hr := hok.table.relation_eq_some.1 hrow
    obtain ⟨new, hassign, hnew⟩ := hnew _ ((hmatched (rid, row)).2 ⟨hr, ht⟩)
    have hlen : row.length = w.table.tmeta.types.length := (hok.table.typed_row hr).length_eq.symm
    exact ⟨new, assignedRow_spec h.colnames_nodup hlen hcomp hassign, hk.ok.table.relation_eq_some.2 hnew⟩
  · have hr := hok.table.relation_eq_some.1 hrow
    refine hk.ok.table.relation_eq_some.2 ((hkeep (rid, row) ?_).2 hr)
    rintro r hrm rfl
    obtain ⟨hrw, ht⟩ := (hmatched r).1 hrm
    obtain rfl : r.2 = row := hok.table.eq_of_mem r.1 hrw hr
    exact hf ht

theorem delete_spec {lib : PyLib} {stmt : DeleteStmt} {matched : List (Int × Row)} {u : Unit} (h : w.Sound) (hok : w.Ok)
    (hm : (do matchingRows lib (← w.view) stmt.where?) = Except.ok matched) (hx : matched.forM deleteRow w = .ok u w') :
    w'.Sound ∧ Kept w w' ∧ Deleted w.table.tmeta lib stmt w.table.relation w'.table.relation := by
  obtain ⟨hmem, hn⟩ := matched_mem hok hm
  have hmatched := h.matched hok hm
  obtain ⟨hs, hk, hnext, hkeep⟩ := deleteRows_spec h hok hmem hn hx
  refine ⟨hs, hk, hnext, fun rid row => ?_⟩
  rw [hk.ok.table.relation_eq_some, hok.table.relation_eq_some, hkeep]
  refine and_congr_right fun hr => ⟨fun hne ht => hne _ ((hmatched (rid, row)).2 ⟨hr, ht⟩) rfl, ?_⟩
  rintro hf r hrm rfl
  obtain ⟨hrw, ht⟩ := (hmatched r).1 hrm
  obtain rfl : r.2 = row := hok.table.eq_of_mem r.1 hrw hr
  exact hf ht

end Work

/-! ### The session -/

namespace Database

/-- The relation of a table of the session. -/
def view (s : Database) (name : String) : Option Relation :=
  (s.tables.find? fun t => decide (t.tmeta.name = name)).map Stored.relation

structure Sound (s : Database) : Prop where
  ok : s.Ok
  tables : ∀ t ∈ s.tables, Work.Sound ⟨t, s.indexes⟩

variable {lib : PyLib} {fits : Bool} {s s' : Database} {u : Unit}

theorem onTable_save_eq_ok {name : String} {x : Exec Work Unit} (h : (do onTable name x; save fits) s = .ok u s') :
    ∃ t w', s.lookupMeta name = .ok t ∧ x ⟨t, s.indexes⟩ = .ok () w' ∧ s' = s.put w' := by
  obtain ⟨⟨⟩, s₁, hx, hs⟩ := Exec.bind_eq_ok.1 h
  obtain rfl := save_eq_ok hs
  rw [onTable] at hx
  split at hx
  · cases hx
  rename_i t ht
  split at hx
  swap
  · cases hx
  rename_i w' hw
  cases hx
  exact ⟨t, w', ht, hw, rfl⟩

theorem sound_put (h : s.Sound) {t : Stored} {w' : Work} (hs : w'.Sound) (hk : Kept ⟨t, s.indexes⟩ w')
    (hok : (s.put w').Ok) : (s.put w').Sound := by
  refine ⟨hok, fun t' ht' => ?_⟩
  obtain ⟨t₀, ht₀, rfl⟩ := List.mem_map.1 ht'
  split
  · exact hs
  · rename_i hne
    have hname : w'.table.tmeta.name = t.tmeta.name := hk.name
    exact (h.tables t₀ ht₀).frame fun c => hk.frame _ (hname ▸ hne)

theorem view_put {w : Work} {t : Stored} (ht : t ∈ s.tables) (hname : w.table.tmeta.name = t.tmeta.name) :
    (s.put w).view t.tmeta.name = some w.table.relation ∧
      ∀ n, n ≠ t.tmeta.name → (s.put w).view n = s.view n := by
  have hfind : ∀ n, (s.put w).view n = ((s.tables.find? fun t => decide (t.tmeta.name = n)).map fun t =>
      if t.tmeta.name = w.table.tmeta.name then w.table else t).map Stored.relation := by
    intro n
    rw [view, put, List.find?_map]
    have hcomp : ((fun t : Stored => decide (t.tmeta.name = n)) ∘ fun t : Stored =>
        if t.tmeta.name = w.table.tmeta.name then w.table else t) = fun t => decide (t.tmeta.name = n) := by
      funext t'
      simp only [Function.comp]
      split
      · rename_i he
        rw [he]
      · rfl
    rw [hcomp]
  constructor
  · rw [hfind]
    rcases hf : s.tables.find? (fun t' => decide (t'.tmeta.name = t.tmeta.name)) with _ | t'
    · exact absurd (List.find?_eq_none.1 hf t ht) (by simp)
    · have ht' : t'.tmeta.name = t.tmeta.name := by simpa using List.find?_some hf
      rw [hf, Option.map_some, Option.map_some, if_pos (ht'.trans hname.symm)]
  · intro n hn
    rw [hfind, view]
    rcases hf : s.tables.find? (fun t' => decide (t'.tmeta.name = n)) with _ | t'
    · rw [hf]
      rfl
    · have ht' : t'.tmeta.name = n := by simpa using List.find?_some hf
      rw [hf, Option.map_some, if_neg (by rw [ht', hname]; exact hn)]

/-! ### The three statements -/

/-- A statement about one table: `P` relates the table before and after, no other table changes. -/
def Changes (s s' : Database) (table : String) (P : TableMeta → Relation → Relation → Prop) : Prop :=
  ∃ t R', s.lookupMeta table = .ok t ∧ s'.view t.tmeta.name = some R' ∧ P t.tmeta t.relation R' ∧
    ∀ n, n ≠ t.tmeta.name → s'.view n = s.view n

theorem changes_onTable (h : s.Sound) {name : String} {x : Exec Work Unit} {P : TableMeta → Relation → Relation → Prop}
    (hx : ∀ w w', w.Sound → w.Ok → x w = .ok () w' →
      w'.Sound ∧ Kept w w' ∧ P w.table.tmeta w.table.relation w'.table.relation)
    (hrun : (do onTable name x; save fits) s = .ok u s') (hok : s'.Ok) : s'.Sound ∧ Changes s s' name P := by
  obtain ⟨t, w', ht, hw, rfl⟩ := onTable_save_eq_ok hrun
  have htm := lookupMeta_mem ht
  obtain ⟨hs, hk, hP⟩ := hx _ _ (h.tables t htm) (h.ok.tables t htm) hw
  obtain ⟨hview, hothers⟩ := view_put htm hk.name
  exact ⟨sound_put h hs hk hok, t, _, ht, hview, hP, hothers⟩

theorem insert_changes {stmt : InsertStmt} (h : s.Sound) (hx : insert fits stmt s = .ok u s') :
    s'.Sound ∧ Changes s s' stmt.table fun m R R' => InsertedRows m stmt.columns R stmt.rows R' := by
  refine changes_onTable h (fun w w' hs hw hx => ?_) hx (ok_insert h.ok hx)
  simp only [Exec.bind_eq_ok, Exec.get_eq_ok, Exec.lift_eq_ok] at hx
  obtain ⟨_, _, ⟨rfl, rfl⟩, width, _, ⟨-, rfl⟩, hx⟩ := hx
  exact Work.insertRows_spec hs hw hx

theorem update_changes {stmt : UpdateStmt} (h : s.Sound) (hx : update lib fits stmt s = .ok u s') :
    s'.Sound ∧ Changes s s' stmt.table fun m R R' => Updated m lib stmt R R' := by
  refine changes_onTable h (fun w w' hs hw hx => ?_) hx (ok_update h.ok hx)
  simp only [Exec.bind_eq_ok, Exec.get_eq_ok, Exec.lift_eq_ok] at hx
  obtain ⟨_, _, ⟨rfl, rfl⟩, ⟨⟩, _, ⟨hcheck, rfl⟩, matched, _, ⟨hm, rfl⟩, assigns, _, ⟨hassigns, rfl⟩, hx⟩ := hx
  exact Work.update_spec hs hw hcheck hm hassigns hx

theorem delete_changes {stmt : DeleteStmt} (h : s.Sound) (hx : delete lib fits stmt s = .ok u s') :
    s'.Sound ∧ Changes s s' stmt.table fun m R R' => Deleted m lib stmt R R' := by
  refine changes_onTable h (fun w w' hs hw hx => ?_) hx (ok_delete h.ok hx)
  simp only [Exec.bind_eq_ok, Exec.get_eq_ok, Exec.lift_eq_ok] at hx
  obtain ⟨_, _, ⟨rfl, rfl⟩, matched, _, ⟨hm, rfl⟩, hx⟩ := hx
  exact Work.delete_spec hs hw hm hx

/-! ### The other operations -/

theorem tableColumns_spec {specs : List ColumnSpec} {cols : List ColumnDef} (h : tableColumns specs = .ok cols) :
    (cols.map ColumnDef.name).Nodup ∧ ∀ c ∈ cols, c.pk = true → c.type = .int := by
  have hloop : ∀ (specs : List ColumnSpec) (cur cols : List ColumnDef),
      (cur.map ColumnDef.name).Nodup ∧ (∀ c ∈ cur, c.pk = true → c.type = .int) →
      specs.foldlM (fun cols c => do
        let norm ← validateColumnDef c
        if norm.name ∈ cols.map ColumnDef.name then throw .catalogError
        if norm.pk ∧ norm.type ≠ .int then throw .catalogError
        return cols ++ [norm]) cur = Except.ok cols →
      (cols.map ColumnDef.name).Nodup ∧ ∀ c ∈ cols, c.pk = true → c.type = .int := by
    intro specs
    induction specs with
    | nil =>
      intro cur cols hcur h
      cases h
      exact hcur
    | cons c specs ih =>
      intro cur cols hcur h
      rw [List.foldlM_cons] at h
      obtain ⟨cur', hcur', h⟩ := do_eq_ok.1 h
      refine ih cur' cols ?_ h
      obtain ⟨norm, -, hcur'⟩ := do_eq_ok.1 hcur'
      by_cases hname : norm.name ∈ cur.map ColumnDef.name
      · simp only [if_pos hname] at hcur'
        cases hcur'
      by_cases hpk : norm.pk = true ∧ norm.type ≠ .int
      · simp only [if_neg hname, if_pos hpk] at hcur'
        cases hcur'
      simp only [if_neg hname, if_neg hpk] at hcur'
      cases hcur'
      constructor
      · rw [List.map_append, List.nodup_append]
        refine ⟨hcur.1, by simp, ?_⟩
        rintro n hn n' hn' rfl
        obtain rfl := List.mem_singleton.1 hn'
        exact hname hn
      · intro c hc hcpk
        rcases List.mem_append.1 hc with hc | hc
        · exact hcur.2 c hc hcpk
        · obtain rfl := List.mem_singleton.1 hc
          by_contra hne
          exact hpk ⟨hcpk, hne⟩
  obtain ⟨cols', hcols', h⟩ := do_eq_ok.1 h
  have hspec := hloop specs [] cols' ⟨by simp, by simp⟩ hcols'
  split at h
  · cases h
  · cases h
    exact hspec

theorem sound_createTable {root : Nat} {name : String} {specs : List ColumnSpec} (h : s.Sound)
    (hx : createTable fits root name specs s = .ok u s') : s'.Sound := by
  refine ⟨ok_createTable h.ok hx, ?_⟩
  unfold createTable at hx
  simp only [Exec.bind_eq_ok, Exec.guard_eq_ok, Exec.get_eq_ok, Exec.lift_eq_ok, Exec.set_eq_ok] at hx
  obtain ⟨cols, _, ⟨hcols, rfl⟩, _, _, ⟨rfl, rfl⟩, hnew, _, _, rfl, hs⟩ := hx
  obtain rfl := save_eq_ok hs
  obtain ⟨hnd, hint⟩ := tableColumns_spec hcols
  intro t ht
  rcases List.mem_append.1 ht with ht | ht
  · exact h.tables t ht
  · obtain rfl := List.mem_singleton.1 ht
    refine ⟨rfl, by simp, hnd, fun i hi => ?_, fun i _ r hr => ?_, fun c idx hidx => ?_⟩
    · rw [TableMeta.pkIndex, List.findIdx?_eq_some_iff_getElem] at hi
      obtain ⟨hlt, hpk, -⟩ := hi
      rw [TableMeta.types, List.getElem?_map, List.getElem?_eq_getElem hlt, Option.map_some,
        hint _ (List.getElem_mem hlt) hpk]
    · obtain ⟨blob, hb, -⟩ := hr
      cases hb
    · have hknown := h.ok.known (name, c) (congrArg Option.isSome hidx)
      exact absurd hknown hnew

theorem sound_dropTable {name : String} (h : s.Sound) (hx : dropTable fits name s = .ok u s') : s'.Sound := by
  refine ⟨ok_dropTable h.ok hx, ?_⟩
  unfold dropTable at hx
  simp only [Exec.bind_eq_ok, Exec.get_eq_ok, Exec.lift_eq_ok, Exec.set_eq_ok] at hx
  obtain ⟨_, _, ⟨rfl, rfl⟩, t, _, ⟨-, rfl⟩, _, _, rfl, hs⟩ := hx
  obtain rfl := save_eq_ok hs
  intro t' ht'
  obtain ⟨ht', hne⟩ := List.mem_filter.1 ht'
  have hne := of_decide_eq_true hne
  exact (h.tables t' ht').frame fun c => if_neg fun hc => hne hc.1

theorem sound_dropIndex {name : String} (h : s.Sound) (hx : dropIndex fits name s = .ok u s') : s'.Sound := by
  refine ⟨ok_dropIndex h.ok hx, ?_⟩
  unfold dropIndex at hx
  obtain ⟨_, _, hget, hx⟩ := Exec.bind_eq_ok.1 hx
  obtain ⟨rfl, rfl⟩ := Exec.get_eq_ok.1 hget
  rcases hf : findIndex s.tables name with _ | ⟨table, col⟩
  · rw [hf] at hx
    exact absurd hx Exec.throw_ne_ok
  simp only [hf, Exec.bind_eq_ok, Exec.set_eq_ok] at hx
  obtain ⟨_, _, rfl, hs⟩ := hx
  obtain rfl := save_eq_ok hs
  intro t ht
  obtain ⟨t₀, ht₀, rfl⟩ := List.mem_map.1 ht
  obtain ⟨h1, h2, h3, h4, h5, h6⟩ := h.tables t₀ ht₀
  have hfinds : Finds t₀.tmeta t₀.rows (Function.update s.indexes (table, col) none) := by
    intro c idx hidx
    by_cases hc : (t₀.tmeta.name, c) = (table, col)
    · rw [hc, Function.update_self] at hidx
      cases hidx
    · rw [Function.update_of_ne hc] at hidx
      exact h6 c idx hidx
  split
  · exact ⟨h1, h2, h3, h4, h5, hfinds⟩
  · exact ⟨h1, h2, h3, h4, h5, hfinds⟩

theorem sound_createIndex {name table column : String} (h : s.Sound)
    (hx : createIndex fits name table column s = .ok u s') : s'.Sound := by
  refine (changes_onTable (P := fun _ _ _ => True) h (fun w w' hs hw hx => ?_) hx (ok_createIndex h.ok hx)).1
  have hk := kept_createIndex hw hx
  simp only [Exec.bind_eq_ok, Exec.guard_eq_ok, Exec.get_eq_ok, Exec.lift_eq_ok, Exec.set_eq_ok] at hx
  obtain ⟨_, _, ⟨rfl, rfl⟩, -, -, -, _, _, rfl, idx, _, ⟨hidx, rfl⟩, rfl⟩ := hx
  obtain ⟨hasc, htyp⟩ := hw.table
  have hbuilt := (buildIndex_scan ⟨hasc, htyp⟩ hidx).2
  obtain ⟨h1, h2, h3, h4, h5, h6⟩ := hs
  refine ⟨⟨h1, h2, h3, h4, h5, fun c idx' hc => ?_⟩, hk, trivial⟩
  by_cases hcc : c = column
  · subst hcc
    simp only [Function.update_self] at hc
    cases hc
    exact hbuilt
  · have hne : (w.table.tmeta.name, c) ≠ (w.table.tmeta.name, column) := fun e => hcc (Prod.mk.inj e).2
    simp only [Function.update_of_ne hne] at hc
    exact h6 c idx' hc

theorem sound_bulkInsert {table : String} {rows : List Row} (h : s.Sound) (hx : bulkInsert fits table rows s = .ok u s') :
    s'.Sound := by
  refine (changes_onTable (P := fun _ _ _ => True) h (fun w w' hs hw hx => ?_) hx (ok_bulkInsert h.ok hx)).1
  have hrun := Exec.forM_rule (P := fun _ v => v.Sound ∧ Kept w v)
    (fun full _ v v' hv hstep => ⟨hv.1.bulkRow hv.2.ok hstep, hv.2.trans (kept_bulkRow hv.2.ok hstep)⟩) ⟨hs, .refl hw⟩ hx
  exact ⟨hrun.1, hrun.2, trivial⟩

theorem sound_vacuum {table : String} (h : s.Sound) (hx : vacuum fits table s = .ok u s') : s'.Sound := by
  refine (changes_onTable (P := fun _ _ _ => True) h (fun w w' hs hw hx => ?_) hx (ok_vacuum h.ok hx)).1
  obtain ⟨-, rfl⟩ := Exec.pure_eq_ok.1 hx
  exact ⟨hs, .refl hw, trivial⟩

/-! ### Runs -/

/-- What a statement that completes normally does to the relations. -/
def Refines (lib : PyLib) (s : Database) (op : Op) (s' : Database) : Prop :=
  match op with
  | .insert stmt => Changes s s' stmt.table fun m R R' => InsertedRows m stmt.columns R stmt.rows R'
  | .update stmt => Changes s s' stmt.table fun m R R' => Updated m lib stmt R R'
  | .delete stmt => Changes s s' stmt.table fun m R R' => Deleted m lib stmt R R'
  | _ => True

theorem sound_step {op : Op} (h : s.Sound) (hop : op ≠ .reopen) (hx : step lib s op = some s') :
    s'.Sound ∧ Refines lib s op s' := by
  rw [step] at hx
  split at hx
  swap
  · cases hx
  rename_i hrun
  cases hx
  rcases op with stmt | stmt | stmt | ⟨table, rows⟩ | table | ⟨root, name, specs⟩ | name | ⟨name, table, column⟩ | name | _
  · exact insert_changes h hrun
  · exact update_changes h hrun
  · exact delete_changes h hrun
  · exact ⟨sound_bulkInsert h hrun, trivial⟩
  · exact ⟨sound_vacuum h hrun, trivial⟩
  · exact ⟨sound_createTable h hrun, trivial⟩
  · exact ⟨sound_dropTable h hrun, trivial⟩
  · exact ⟨sound_createIndex h hrun, trivial⟩
  · exact ⟨sound_dropIndex h hrun, trivial⟩
  · exact absurd rfl hop

theorem sound_empty : Sound empty := ⟨ok_empty, by simp [empty]⟩

/-- The counters and keys of every table: `row_count` is the number of rows, every rowid is below
`next_rowid`, and the primary key of a row is its rowid. -/
def Counters (s : Database) : Prop :=
  ∀ t ∈ s.tables, t.tmeta.rowCount = {rid | (t.relation.rows rid).isSome = true}.ncard ∧
    ∀ rid row, t.relation.rows rid = some row →
      rid < t.tmeta.nextRowid ∧ ∀ i, t.tmeta.pkIndex = some i → row[i]? = some (.int rid)

theorem Sound.counters (h : s.Sound) : s.Counters := by
  intro t ht
  have hok := (h.ok.tables t ht).table
  have hs := h.tables t ht
  constructor
  · have hset : {rid | (t.relation.rows rid).isSome = true} = ((t.cells.map Prod.fst).toFinset : Set Int) := by
      ext rid
      simp only [Set.mem_ofPred_eq, List.coe_toFinset, List.mem_map]
      rw [← Option.ne_none_iff_isSome, Ne, hok.relation_eq_none]
      push Not
      rfl
    have hnd : (t.cells.map Prod.fst).Nodup := by
      rw [List.Nodup, List.pairwise_map]
      exact hok.ascending.imp fun h => h.ne
    rw [hset, Set.ncard_coe_finset, List.toFinset_card_of_nodup hnd, List.length_map]
    exact hs.rowCount
  · intro rid row hrow
    have hr := hok.relation_eq_some.1 hrow
    refine ⟨?_, fun i hi => hs.pk_eq i hi _ hr⟩
    obtain ⟨blob, hb, -⟩ := hr
    exact hs.next _ hb

/-- DML refines the relational model. In every state a session reaches from an empty database the counters
and keys are right, and every INSERT, UPDATE or DELETE that completes normally does to the relations what
its statement says, and nothing to other tables. -/
theorem dml_refines (lib : PyLib) {ops : List Op} {s : Database}
    (hrun : Run (step lib) (fun _ op => op ≠ .reopen) empty ops s) :
    s.Counters ∧ ∀ op s', op ≠ .reopen → step lib s op = some s' → Refines lib s op s' := by
  have hs : s.Sound := hrun.invariant (fun _ _ _ h hop hstep => (sound_step h hop hstep).1) sound_empty
  exact ⟨hs.counters, fun op s' hop hstep => (sound_step hs hop hstep).2⟩

theorem dml_refines_sampleOps : ∃ s, sampleOps.foldlM (step plainLib) empty = some s ∧ s.Counters := by
  have h : (sampleOps.foldlM (step plainLib) empty).isSome = true := by decide +kernel
  obtain ⟨s, hs⟩ := Option.isSome_iff_exists.1 h
  have hrun := (run_of_foldlM hs).and_forall_mem (P := fun op => op ≠ .reopen) (by simp [sampleOps])
  exact ⟨s, hs, (dml_refines plainLib (hrun.mono fun _ _ h => h.1)).1⟩

end Database

end LeafDb
