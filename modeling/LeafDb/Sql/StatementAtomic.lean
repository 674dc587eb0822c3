import LeafDb.Sql.PageStatements

/-!
# Statements that raise inside a transaction (`engine.py`)

Inside an explicit transaction an exception of a statement is not followed by a rollback, so what the rows before
it changed stays. What a statement does before its first call that changes a tree is reading, so an exception that
comes before that call leaves nothing behind (`statement_undone`); an INSERT that raises once its first row is put
counts that row (`not_sameMemory_insert`).
-/

namespace LeafDb.PyDatabase

open Database (InsertStmt UpdateStmt DeleteStmt insertWidth checkAssignment compileAssignments)

section Dml

variable {lib : PyLib} {jlib : JsonLib} {s s' : PyDatabase} {w : BulkWork}

/-- The rows of the statement reach a call that changes the tree of their table. -/
def Dml.Changes (lib : PyLib) (w : BulkWork) : Dml → Prop
  | insert stmt => ∃ width exprs r w', insertWidth w.tmeta stmt.columns = .ok width ∧ exprs ∈ stmt.rows.head? ∧
      prepareInsert w.tmeta stmt.columns width exprs = .ok r ∧ search r.1 w = .ok none w'
  | update stmt => ∃ matched w' r assigns new, stmt.assignments.forM (checkAssignment w.tmeta) = .ok () ∧
      matchingRows lib stmt.where? w = .ok matched w' ∧ r ∈ matched.head? ∧
      compileAssignments lib w.tmeta stmt.assignments = .ok assigns ∧ prepareUpdate w.tmeta assigns r.2 = .ok new
  | delete stmt => ∃ matched w', matchingRows lib stmt.where? w = .ok matched w' ∧ matched ≠ []

theorem seen_insertRows {stmt : InsertStmt} (hw : Open w) (hn : ¬(Dml.insert stmt).Changes lib w) :
    Exec.Post (insertRows stmt) w (fun _ w' => Seen w w') fun _ w' => Seen w w' := by
  rw [insertRows, Exec.post_bind, Exec.post_get, Exec.post_bind, Exec.post_lift]
  refine ⟨fun width hwidth => ?_, fun _ _ => hw.refl⟩
  cases hrows : stmt.rows with
  | nil => exact hw.refl
  | cons exprs rows =>
    change Exec.Post (insertRow stmt.columns width exprs >>= fun _ => rows.forM (insertRow stmt.columns width)) w _ _
    rw [Exec.post_bind, insertRow, Exec.post_bind, Exec.post_get, Exec.post_bind, Exec.post_lift]
    refine ⟨fun r hr => ?_, fun _ _ => hw.refl⟩
    obtain ⟨rid, row, blob⟩ := r
    have hsearch := seen_search hw rid
    rw [Exec.post_bind]
    rw [Exec.Post] at hsearch ⊢
    rcases hx : search rid w with ⟨found, w'⟩ | ⟨e, w'⟩ <;> rw [hx] at hsearch
    · cases found with
      | none => exact absurd ⟨width, exprs, _, w', hwidth, by rw [hrows]; rfl, hr, hx⟩ hn
      | some blob' => exact hsearch
    · exact hsearch

theorem seen_updateRows {stmt : UpdateStmt} (hw : Open w) (hn : ¬(Dml.update stmt).Changes lib w) :
    Exec.Post (updateRows lib stmt) w (fun _ w' => Seen w w') fun _ w' => Seen w w' := by
  rw [updateRows, Exec.post_bind, Exec.post_get, Exec.post_bind, Exec.post_lift]
  refine ⟨fun _ hcheck => ?_, fun _ _ => hw.refl⟩
  have hmatch := seen_matchingRows hw lib stmt.where?
  rw [Exec.post_bind]
  rw [Exec.Post] at hmatch ⊢
  rcases hx : matchingRows lib stmt.where? w with ⟨matched, w'⟩ | ⟨e, w'⟩ <;> rw [hx] at hmatch
  swap
  · exact hmatch
  change Exec.Post _ w' _ _
  rw [Exec.post_bind, Exec.post_lift]
  refine ⟨fun assigns hcompile => ?_, fun _ _ => hmatch⟩
  cases matched with
  | nil => exact hmatch
  | cons r matched =>
    change Exec.Post (updateRow assigns r >>= fun _ => matched.forM (updateRow assigns)) w' _ _
    rw [Exec.post_bind, updateRow, Exec.post_bind, Exec.post_get, Exec.post_bind, Exec.post_lift]
    refine ⟨fun new hnew => ?_, fun _ _ => hmatch⟩
    rw [hmatch.tmeta] at hnew
    exact absurd ⟨_, w', r, assigns, new, hcheck, hx, rfl, hcompile, hnew⟩ hn

theorem seen_deleteRows {stmt : DeleteStmt} (hw : Open w) (hn : ¬(Dml.delete stmt).Changes lib w) :
    Exec.Post (deleteRows lib stmt) w (fun _ w' => Seen w w') fun _ w' => Seen w w' := by
  have hmatch := seen_matchingRows hw lib stmt.where?
  rw [deleteRows, Exec.post_bind]
  rw [Exec.Post] at hmatch ⊢
  rcases hx : matchingRows lib stmt.where? w with ⟨matched, w'⟩ | ⟨e, w'⟩ <;> rw [hx] at hmatch
  swap
  · exact hmatch
  cases matched with
  | nil => exact hmatch
  | cons r matched => exact absurd ⟨_, w', hx, List.cons_ne_nil _ _⟩ hn

/-- By cases on the statement. -/
theorem seen_rows {stmt : Dml} (hw : Open w) (hn : ¬stmt.Changes lib w) :
    Exec.Post (stmt.rows lib) w (fun _ w' => Seen w w') fun _ w' => Seen w w' := by
  cases stmt with
  | insert stmt => exact seen_insertRows hw hn
  | update stmt => exact seen_updateRows hw hn
  | delete stmt => exact seen_deleteRows hw hn

/-- The statement reaches a call of `btree.insert`, `btree.upsert` or `btree.delete`. -/
def Changes (lib : PyLib) (s : PyDatabase) (stmt : Dml) : Prop :=
  ∃ m, s.catalog.get stmt.table = .ok m ∧ stmt.Changes lib ⟨m, s.tree, s.indexes⟩

/-- The rows of a table, as the pages hold them. -/
def tableRows (s : PyDatabase) (m : TableMeta) : Except PyError (List (Int × Row)) := do
  let cells ← rangeScan (fun n => (nodeFromBytes (s.tree.pager.content n) : Except PyError PyNode)) s.tree.pager.numPages
    m.rootPage none none
  cells.mapM fun c => do return (c.1, ← decodeRow m.types c.2)

/-- What a commit hands to the log: the pages and their number. -/
def pendingBatch (s : PyDatabase) : Except PyError (List (Nat × Bytes) × Nat) :=
  s.tree.pager.collectCommit.map fun b => (b.1, b.2.1)

/-- Nothing of the statement is left: not in the entries of the tables and the indexes, not on the pages, and not
in what a commit would write. -/
structure Undone (s s' : PyDatabase) : Prop where
  same : Same s s'
  rows : ∀ m, tableRows s' m = tableRows s m
  batch : pendingBatch s' = pendingBatch s

theorem undone_of_undisturbed (h : s.tree.pager.WF) (hmem : SameMemory s s') (hr : Undisturbed s.tree.pager s'.tree.pager) :
    Undone s s' where
  same := ⟨hmem, hr.content⟩
  rows m := by
    rw [tableRows, tableRows, hr.numPages]
    simp only [hr.content]
  batch := by
    have hpages : s'.tree.pager.touchedPages = s.tree.pager.touchedPages := by
      rw [Pager.touchedPages, Pager.touchedPages, hr.touched]
    rw [pendingBatch, pendingBatch, Pager.collectCommit_eq h, Pager.collectCommit_eq hr.wf, hpages, hr.numPages]
    simp only [hr.content, Except.map]

theorem undone_dispatch {stmt : Dml} {e : PyError} (hok : s.tree.pager.WF) (ht : s.tree.pager.touched.isSome)
    (hx : dispatch lib jlib stmt s = .error e s') (hn : ¬Changes lib s stmt) : Undone s s' := by
  obtain ⟨snapshot, hsnap⟩ := ensureSnapshot_eq s
  have hpost : Exec.Post (dispatch lib jlib stmt) s (fun _ _ => True) fun _ s' => Undone s s' := by
    have hmodify : Exec.Post (modify ensureSnapshot : Exec PyDatabase PUnit) s
        (fun _ s' => s' = { s with snapshot := snapshot }) fun _ _ => False := hsnap
    rw [dispatch, Exec.post_bind]
    refine hmodify.mono ?_ fun _ _ h => h.elim
    rintro _ _ rfl
    rw [Exec.post_bind]
    have hmeta : Exec.Post (onMeta stmt.table (stmt.rows lib)) { s with snapshot := snapshot }
        (fun _ s' => Undone s s') fun _ s' => Undone s s' := by
      rw [Exec.Post, onMeta]
      cases hm : s.catalog.get stmt.table with
      | error e => exact undone_of_undisturbed hok ⟨rfl, rfl⟩ (.refl hok)
      | ok m =>
        have hopen : Open ⟨m, s.tree, s.indexes⟩ := ⟨hok, ht⟩
        have hrows := seen_rows hopen fun h => hn ⟨m, hm, h⟩
        have hput : ∀ w, Seen ⟨m, s.tree, s.indexes⟩ w → Undone s (put { s with snapshot := snapshot } stmt.table w) := by
          intro w hw
          refine undone_of_undisturbed hok ⟨?_, hw.indexes⟩ hw.reads
          change (s.catalog.setTable stmt.table.toLower w.tmeta).tables = _
          rw [hw.tmeta, Catalog.setTable_self (Catalog.mem_of_get hm)]
        rw [Exec.Post] at hrows
        simp only
        rcases hx : stmt.rows lib ⟨m, s.tree, s.indexes⟩ with ⟨u, w⟩ | ⟨e, w⟩ <;> rw [hx] at hrows
        · exact hput w hrows
        · exact hput w hrows
    refine hmeta.mono (fun _ t ht => ?_) fun _ _ h => h
    rw [Exec.Post]
    rcases hsave : saveCatalog jlib t with ⟨u, t'⟩ | ⟨e, t'⟩
    · trivial
    · rw [saveCatalog_error hsave]
      exact ht
  exact hpost.of_error hx

theorem insertCell_eq {dup : PyError} {rid : Int} {blob : Bytes} {root : Nat} {t : PyTree}
    (h : w.tree.insert w.tmeta.rootPage rid blob = .ok root t) : insertCell dup rid blob w = .ok root { w with tree := t } := by
  rw [insertCell, h]

/-- A row that is put counts, whether its index entries raise or not. -/
theorem putRow_counts {rid : Int} {row : Row} {blob : Bytes} {root : Nat} {t : PyTree}
    (h : w.tree.insert w.tmeta.rootPage rid blob = .ok root t) :
    Exec.Post (putRow rid row blob) w (fun _ w' => w'.tmeta = counted w.tmeta root rid)
      fun _ w' => w'.tmeta = counted w.tmeta root rid := by
  have hcell : Exec.Post (insertCell .sqlError rid blob) w (fun root' w' => root' = root ∧ w' = { w with tree := t }) fun _ _ => False := by
    rw [Exec.Post, insertCell_eq h]
    exact ⟨rfl, rfl⟩
  rw [putRow, Exec.post_bind, Exec.post_get, Exec.post_bind]
  refine hcell.mono ?_ fun _ _ h => h.elim
  rintro _ _ ⟨rfl, rfl⟩
  rw [Exec.post_bind, Exec.post_get, Exec.post_bind, Exec.post_set, Exec.post_bind, Exec.post_lift]
  exact ⟨fun _ _ => rfl, fun _ _ => rfl⟩

/-- No row makes the counter smaller. -/
theorem insertRow_counts (declared : Option (List String)) (width : Nat) (exprs : List Expr) (w : BulkWork) :
    Exec.Post (insertRow declared width exprs) w (fun _ w' => w.tmeta.rowCount ≤ w'.tmeta.rowCount)
      fun _ w' => w.tmeta.rowCount ≤ w'.tmeta.rowCount := by
  have hkeep : Keeps fun _ => True := ⟨fun _ _ => trivial, fun _ _ => trivial, fun _ => trivial⟩
  rw [insertRow, Exec.post_bind, Exec.post_get, Exec.post_bind, Exec.post_lift]
  refine ⟨fun r _ => ?_, fun _ _ => le_refl _⟩
  obtain ⟨rid, row, blob⟩ := r
  have hsearch : Exec.Post (search rid) w (fun _ w' => w'.tmeta = w.tmeta) fun _ w' => w'.tmeta = w.tmeta := by
    rw [Exec.Post, search, onTree]
    rcases (BTree.lookup w.tree.pager.numPages w.tmeta.rootPage rid).exec w.tree with ⟨a, t⟩ | ⟨e, t⟩ <;> rfl
  rw [Exec.post_bind]
  refine hsearch.mono (fun found w' hw' => ?_) fun _ w' hw' => (congrArg TableMeta.rowCount hw').ge
  cases found with
  | some blob' => exact (congrArg TableMeta.rowCount hw').ge
  | none =>
    change Exec.Post (putRow rid row blob) w' _ _
    rw [← hw']
    cases hi : w'.tree.insert w'.tmeta.rootPage rid blob with
    | ok root t =>
      refine (putRow_counts hi).mono (fun _ w'' hw'' => ?_) fun _ w'' hw'' => ?_ <;>
      · rw [hw'']
        exact Nat.le_succ _
    | error e t =>
      rw [putRow, Exec.post_bind, Exec.post_get, Exec.post_bind]
      refine (insertCell_spec hkeep trivial _ rid blob).mono ?_ ?_
      · rintro root w'' ⟨_, _, hi'⟩
        cases hi.symm.trans hi'
      · rintro _ w'' ⟨_, hw'', _⟩
        rw [hw'']

/-- The first row of an INSERT is put. -/
def PutsInsert (w : BulkWork) (stmt : InsertStmt) : Prop :=
  ∃ width exprs rid row blob w' root t, insertWidth w.tmeta stmt.columns = .ok width ∧ exprs ∈ stmt.rows.head? ∧
    prepareInsert w.tmeta stmt.columns width exprs = .ok (rid, row, blob) ∧ search rid w = .ok none w' ∧
    w'.tmeta = w.tmeta ∧ w'.tree.insert w.tmeta.rootPage rid blob = .ok root t

theorem insertRows_counts {stmt : InsertStmt} (h : PutsInsert w stmt) :
    Exec.Post (insertRows stmt) w (fun _ w' => w.tmeta.rowCount < w'.tmeta.rowCount)
      fun _ w' => w.tmeta.rowCount < w'.tmeta.rowCount := by
  obtain ⟨width, exprs, rid, row, blob, w', root, t, hwidth, hexprs, hprep, hsearch, htmeta, hinsert⟩ := h
  obtain ⟨rows, hrows⟩ : ∃ rows, stmt.rows = exprs :: rows := List.head?_eq_some_iff.1 hexprs
  rw [insertRows, Exec.post_bind, Exec.post_get, Exec.post_bind, hwidth, hrows]
  change Exec.Post (insertRow stmt.columns width exprs >>= fun _ => rows.forM (insertRow stmt.columns width)) w _ _
  have hfirst : Exec.Post (insertRow stmt.columns width exprs) w (fun _ w' => w.tmeta.rowCount < w'.tmeta.rowCount)
      fun _ w' => w.tmeta.rowCount < w'.tmeta.rowCount := by
    have hnone : Exec.Post (search rid) w (fun found w'' => found = none ∧ w'' = w') fun _ _ => False := by
      rw [Exec.Post, hsearch]
      exact ⟨rfl, rfl⟩
    rw [insertRow, Exec.post_bind, Exec.post_get, Exec.post_bind, hprep]
    change Exec.Post (search rid >>= _) w _ _
    rw [Exec.post_bind]
    refine hnone.mono ?_ fun _ _ h => h.elim
    rintro _ w'' ⟨rfl, hw⟩
    change Exec.Post (putRow rid row blob) w'' _ _
    rw [hw]
    rw [← htmeta] at hinsert ⊢
    refine (putRow_counts hinsert).mono (fun _ w'' hw'' => ?_) fun _ w'' hw'' => ?_ <;>
    · rw [hw'']
      exact Nat.lt_succ_self _
  rw [Exec.post_bind]
  refine hfirst.mono (fun _ w₁ h₁ => ?_) fun _ _ h => h
  exact Exec.post_forM (P := fun w₂ : BulkWork => w.tmeta.rowCount < w₂.tmeta.rowCount)
    (fun exprs w₂ h₂ =>
      (insertRow_counts stmt.columns width exprs w₂).mono (fun _ _ h => h₂.trans_le h) fun _ _ h => h₂.trans_le h) h₁

/-- The rows raise, so the statement does, and what they left is left. -/
theorem dispatch_of_rows {stmt : Dml} {m : TableMeta} {w' : BulkWork} {e : PyError} (hm : s.catalog.get stmt.table = .ok m)
    (hx : stmt.rows lib ⟨m, s.tree, s.indexes⟩ = .error e w') :
    dispatch lib jlib stmt s = .error e (put (ensureSnapshot s) stmt.table w') := by
  obtain ⟨snapshot, hsnap⟩ := ensureSnapshot_eq s
  have hmeta : onMeta stmt.table (stmt.rows lib) { s with snapshot := snapshot } =
      .error e (put { s with snapshot := snapshot } stmt.table w') := by
    rw [onMeta]
    simp only [hm, hx]
  have hmodify : (modify ensureSnapshot : Exec PyDatabase PUnit) s = .ok ⟨⟩ (ensureSnapshot s) := rfl
  rw [dispatch, Exec.bind_of_ok hmodify, hsnap]
  exact Exec.bind_of_error hmeta

/-- An INSERT that raises once its first row is put leaves another entry of its table. -/
theorem not_sameMemory_insert {stmt : InsertStmt} {m : TableMeta} {e : PyError} (hm : s.catalog.get stmt.table = .ok m)
    (hx : dispatch lib jlib (.insert stmt) s = .error e s') (hp : PutsInsert ⟨m, s.tree, s.indexes⟩ stmt) :
    ¬SameMemory s s' := by
  obtain ⟨snapshot, hsnap⟩ := ensureSnapshot_eq s
  rintro ⟨htables, -⟩
  obtain ⟨w, hlt, hw⟩ : ∃ w : BulkWork, m.rowCount < w.tmeta.rowCount ∧
      s'.catalog.tables = (s.catalog.setTable stmt.table.toLower w.tmeta).tables := by
    have hrows := insertRows_counts hp
    rw [Exec.Post] at hrows
    rcases hr : insertRows stmt ⟨m, s.tree, s.indexes⟩ with ⟨u, w⟩ | ⟨e', w⟩ <;> rw [hr] at hrows
    · have hmeta : onMeta stmt.table (insertRows stmt) { s with snapshot := snapshot } =
          .ok () (put { s with snapshot := snapshot } stmt.table w) := by
        rw [onMeta]
        simp only [hm, hr]
      have hmodify : (modify ensureSnapshot : Exec PyDatabase PUnit) s = .ok ⟨⟩ (ensureSnapshot s) := rfl
      rw [dispatch, Exec.bind_of_ok hmodify, hsnap] at hx
      have hsave := (Exec.bind_of_ok hmeta).symm.trans hx
      rw [saveCatalog_error hsave]
      exact ⟨w, hrows, rfl⟩
    · have hd : dispatch lib jlib (.insert stmt) s = .error e' (put (ensureSnapshot s) stmt.table w) := dispatch_of_rows hm hr
      rw [hd, hsnap] at hx
      cases hx
      exact ⟨w, hrows, rfl⟩
  rw [Catalog.eq_of_setTable (Catalog.mem_of_get hm) (hw.symm.trans htables)] at hlt
  exact lt_irrefl _ hlt

/-! `INSERT INTO t VALUES (NULL), (NULL, NULL)` in a transaction over the empty table of one TEXT column. -/

/-- BEGIN. -/
def oneTableBegun : PyDatabase := { oneTableSession with tree := oneTableSession.tree.begun, snapshot := none, inTxn := true }

theorem get_oneTableBegun : oneTableBegun.catalog.get "t" = .ok oneTableMeta := get_oneTable

theorem touched_begun (t : PyTree) : t.begun.pager.touched.isSome = true := rfl

theorem reachable_oneTableBegun : Reachable oneTableLib oneTableBegun :=
  .began reachable_oneTableSession (beginLocked_eq reachable_oneTableSession.ok rfl)

def secondRowWide : InsertStmt := ⟨"t", none, [[.literal .none], [.literal .none, .literal .none]]⟩

/-- A tree whose root is an empty leaf takes the first row. -/
theorem putsInsert_emptyLeaf {t t' : PyTree} (hwf : t.pager.WF) (ht : t.pager.touched.isSome) (hn : t.pager.numPages = 2)
    (hload : PyTree.load 1 t = .ok (.leaf [] none) t') (idxs : Indexes) : PutsInsert ⟨oneTableMeta, t, idxs⟩ secondRowWide := by
  have hlookup : (BTree.lookup 2 1 1).exec t = .ok none t' := by
    have hpost : Exec.Post (BTree.lookup 2 1 1).exec t (fun a t₁ => a = none ∧ t₁ = t') fun _ _ => False := by
      rw [BTree.lookup, TreeM.post_bind, TreeM.post_loadNode hload]
      exact ⟨rfl, rfl⟩
    unfold Exec.Post at hpost
    rcases hx : (BTree.lookup 2 1 1).exec t with ⟨a, t₁⟩ | ⟨e, t₁⟩ <;> rw [hx] at hpost
    · rw [hpost.1, hpost.2]
    · exact hpost.elim
  have hreads := (BTree.readOnly_lookup 2 1 1).reads hwf ht
  obtain ⟨t₂, hagain⟩ := PyTree.load_again hwf hload
  obtain ⟨root, t₃, hinsert⟩ := insert_emptyLeaf hagain ((hreads.of_ok hlookup).numPages.trans hn)
  refine ⟨1, [.literal .none], 1, [.none], [0, 0, 0, 1], ⟨oneTableMeta, t', idxs⟩, root, t₃, rfl, rfl, rfl, ?_, rfl, hinsert⟩
  exact onTree_of_ok (by rw [hn]; exact hlookup)

theorem putsInsert_oneTable : PutsInsert ⟨oneTableMeta, oneTableBegun.tree, oneTableBegun.indexes⟩ secondRowWide := by
  obtain ⟨t, hload⟩ := load_oneTable
  exact putsInsert_emptyLeaf (Pager.wf_begin (Pager.wf_openFile ..)) (touched_begun _) numPages_oneTable hload _

/-- The second row is too wide. -/
theorem raises_secondRowWide (t : PyTree) (idxs : Indexes) :
    Exec.Post (insertRows secondRowWide) ⟨oneTableMeta, t, idxs⟩ (fun _ _ => False) fun _ _ => True := by
  have hsecond : ∀ w, Exec.Post (insertRow none 1 [.literal .none, .literal .none]) w (fun _ _ => False) fun _ _ => True := by
    intro w
    rw [insertRow, Exec.post_bind, Exec.post_get, Exec.post_bind, Exec.post_lift]
    have hprep : prepareInsert w.tmeta none 1 [.literal .none, .literal .none] = .error .sqlError := rfl
    exact ⟨fun r hr => (nomatch hprep.symm.trans hr), fun _ _ => trivial⟩
  change Exec.Post (insertRow none 1 [.literal .none] >>= fun _ =>
    insertRow none 1 [.literal .none, .literal .none] >>= fun _ => pure ()) _ _ _
  rw [Exec.post_bind]
  refine (insertRow_counts none 1 [.literal .none] _).mono (fun _ w _ => ?_) fun _ _ _ => trivial
  rw [Exec.post_bind]
  exact (hsecond w).mono (fun _ _ h => h) fun _ _ h => h

theorem raises_oneTable_of_get {s : PyDatabase} (hget : s.catalog.get "t" = .ok oneTableMeta) (ht : s.inTxn = true) :
    ∃ e s', dispatch plainLib oneTableLib (.insert secondRowWide) s = .error e s' ∧
      runOne plainLib oneTableLib (.insert secondRowWide) s = .error e s' := by
  have hrows := raises_secondRowWide s.tree s.indexes
  rw [Exec.Post] at hrows
  rcases hx : insertRows secondRowWide ⟨oneTableMeta, s.tree, s.indexes⟩ with ⟨u, w⟩ | ⟨e, w⟩ <;> rw [hx] at hrows
  · exact hrows.elim
  · have hd : dispatch plainLib oneTableLib (.insert secondRowWide) s = .error e (put (ensureSnapshot s) "t" w) :=
      dispatch_of_rows hget hx
    exact ⟨e, _, hd, by rw [runOne, if_pos ht, hd]⟩

def firstRowWide : InsertStmt := ⟨"t", none, [[.literal .none, .literal .none]]⟩

theorem refuses_firstRowWide {s : PyDatabase} (hget : s.catalog.get "t" = .ok oneTableMeta) (ht : s.inTxn = true) :
    (∃ s', runOne plainLib oneTableLib (.insert firstRowWide) s = .error .sqlError s') ∧
      ¬Changes plainLib s (.insert firstRowWide) := by
  have hrows : insertRows firstRowWide ⟨oneTableMeta, s.tree, s.indexes⟩ = .error .sqlError ⟨oneTableMeta, s.tree, s.indexes⟩ := rfl
  have hd : dispatch plainLib oneTableLib (.insert firstRowWide) s =
      .error .sqlError (put (ensureSnapshot s) "t" ⟨oneTableMeta, s.tree, s.indexes⟩) := dispatch_of_rows hget hrows
  refine ⟨⟨_, by rw [runOne, if_pos ht, hd]⟩, ?_⟩
  rintro ⟨m, hm, width, exprs, r, w', hwidth, hexprs, hprep, -⟩
  obtain rfl := Except.ok.inj (hget.symm.trans hm)
  obtain rfl : [.literal .none, .literal .none] = exprs := Option.some.inj hexprs
  have hone : insertWidth oneTableMeta none = .ok 1 := rfl
  obtain rfl := Except.ok.inj (hone.symm.trans hwidth)
  cases hprep

end Dml

end LeafDb.PyDatabase
