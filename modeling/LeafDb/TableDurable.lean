import LeafDb.SessionCrash
import LeafDb.TableTrees

/-!
# The tables are durable

One `Database` object at a time on one path: the tree calls of its statements, new and dropped tables, the catalog on page 0
that names the roots, commits, rollbacks, checkpoints, closes, and processes that die at any moment. The reference maps go
with the statements, and `saved` is what they were at the last commit whose bytes are all in the log. In every state reached
each table of the open session shows its map, and whoever opens the database next finds `saved` (`shows_saved`), as long as no
transaction commits rows whose catalog was not saved, no rollback brings back an image whose cached node was changed, and
pages are lost and torn only as in `System.CrashOk`.
-/

namespace LeafDb

open PyTree (Call Refines Holds)

/-- What the processes on one path leave and hold. -/
structure TableDb where
  sys : System
  /-- The node cache of the session's `BTree`. -/
  ncache : AList fun _ : Nat => Image × PyNode
  catalog : Catalog
  /-- The tables of `_snapshot`. -/
  snapshot : Option Catalog
  /-- A statement has changed a table or its entry and not come to `catalog.save`. -/
  unsaved : Bool
  /-- A call of the tree has raised. -/
  raised : Bool
  /-- History: the reference maps. -/
  maps : TableMaps
  /-- History: the reference maps at the last commit. -/
  saved : TableMaps

namespace Catalog

/-- `json.loads` inverts `json.dumps` on the catalog, and the text ends with a brace. -/
def Reloads (lib : JsonLib) (c : Catalog) : Prop :=
  lib.loads (lib.dumps c.json) = .ok c.json ∧ (lib.dumps c.json).getLast? = some 125

theorem reloaded_congr {c c' : Catalog} (h : c.tables = c'.tables) : c.reloaded = c'.reloaded := ext h rfl

theorem length_save {lib : JsonLib} {c : Catalog} {page : Bytes} (h : c.save lib = .ok page) : page.length = pageSize := by
  rw [save] at h
  split at h
  · cases h
  · cases h
    exact length_padTo (by omega)

end Catalog

namespace TableDb

variable (lib : JsonLib) (i : Nat)

/-- The tree as the session has it. -/
def tree (d : TableDb) (x : Session) : PyTree := ⟨d.sys.pagerOf x, d.ncache⟩

/-- The session goes on with this tree. -/
def put (d : TableDb) (x : Session) (t : PyTree) : TableDb := { d with sys := d.sys.store i x t.pager, ncache := t.ncache }

inductive Event
  | open (cacheSize : Nat)
  /-- `_load` of a page. -/
  | load (n : Nat)
  | begin
  /-- A statement that raises before it changes anything. -/
  | refuse
  /-- A call of the tree in an `INSERT`, `UPDATE` or `DELETE`, and the counts of the table after it. -/
  | call (name : String) (c : Call) (rowCount : Nat) (nextRowid : Int)
  | create (name : String) (columns : List ColumnDef)
  | drop (name : String)
  /-- The entry of a table in `CREATE INDEX` and `DROP INDEX`. -/
  | index (key : String) (indexes : List (String × String))
  /-- The end of a statement. -/
  | save
  | commit
  | rollback
  | checkpoint
  | close (checkpoint : Bool)
  | kill (file : Bytes)
  | killCommit (kept : Nat) (file : Bytes)
  | killReset (a : System.Action) (kept : Nat)

/-- `Database.__init__`; `saved` is what the pages show. -/
def «open» (d : TableDb) (cacheSize : Nat) : Option TableDb :=
  match d.sys.openFiles i cacheSize with
  | none => none
  | some sys =>
    match sys.sess.lookup i with
    | none => none
    | some x =>
      -- `Catalog.load`
      match (sys.pagerOf x).get 0 with
      | .error _ => none
      | .ok (im, p) =>
        match Catalog.load lib im.bytes with
        | .error _ => none
        | .ok catalog => some ⟨sys.store i x p, ∅, catalog, none, false, false, d.saved, d.saved⟩

def load (d : TableDb) (n : Nat) : Option TableDb :=
  match d.sys.sess.lookup i with
  | none => none
  | some x =>
    match PyTree.load n (d.tree x) with
    | .ok _ t => some (d.put i x t)
    | .error _ t => some (d.put i x t)

/-- `_ensure_snapshot` in a transaction. -/
def ensureSnapshot (d : TableDb) : TableDb := { d with snapshot := some (d.snapshot.getD d.catalog.reloaded) }

/-- A part of a statement, in a transaction. -/
def statement (d : TableDb) (f : Session → TableDb → Option TableDb) : Option TableDb :=
  match d.sys.sess.lookup i with
  | none => none
  | some x => if x.inTxn then f x d.ensureSnapshot else none

def call (name : String) (c : Call) (rowCount : Nat) (nextRowid : Int) (x : Session) (d : TableDb) : Option TableDb :=
  match d.catalog.get name with
  | .error _ => some d
  | .ok m =>
    match (d.tree x).call m.rootPage c with
    | none => some { d.put i x ((d.tree x).after m.rootPage c) with raised := true }
    | some (r, t, root) =>
      let maps := Function.update d.maps name.toLower ((d.maps name.toLower).map c.apply)
      match r with
      | .duplicateKey => some { d.put i x t with unsaved := true, maps := maps }
      | _ =>
        let m := { m with rootPage := root, rowCount := rowCount, nextRowid := nextRowid }
        some { d.put i x t with unsaved := true, maps := maps, catalog := d.catalog.setTable name.toLower m }

/-- `_create_table` from the choice of the root on. -/
def create (name : String) (columns : List ColumnDef) (x : Session) (d : TableDb) : Option TableDb :=
  let catalog := { d.catalog with freePages := d.catalog.freePages.dropLast }
  match (BTree.newRoot d.catalog.freePages).exec (d.tree x) with
  | .error _ t => some { d.put i x t with catalog := catalog, raised := true }
  | .ok root t =>
    -- `catalog.add`
    if (d.catalog.entry name).isSome then some { d.put i x t with catalog := catalog }
    else some { d.put i x t with
      catalog := catalog.setTable name ⟨name, columns, root, 0, 1, []⟩
      unsaved := true
      maps := Function.update d.maps name (some fun _ => none) }

/-- `_drop_table` without the indexes. -/
def drop (name : String) (x : Session) (d : TableDb) : Option TableDb :=
  match d.catalog.get name with
  | .error _ => some d
  | .ok m =>
    match (BTree.collectTreePages ((d.tree x).pager.numPages + 1) [] [m.rootPage]).exec (d.tree x) with
    | .error _ t => some { d.put i x t with raised := true }
    | .ok pages t =>
      let freed := (pages.insert m.rootPage).insertionSort (· ≥ ·)
      some { d.put i x t with
        catalog := { d.catalog.delTable m.name with freePages := d.catalog.freePages ++ freed }
        unsaved := true
        maps := Function.update d.maps m.name none }

def index (key : String) (indexes : List (String × String)) (d : TableDb) : Option TableDb :=
  match d.catalog.entry key with
  | none => some d
  | some m => some { d with catalog := d.catalog.setTable key { m with indexes := indexes }, unsaved := true }

/-- `catalog.save`; where it raises it has changed nothing. -/
def save (x : Session) (d : TableDb) : Option TableDb :=
  match d.catalog.save lib with
  | .error _ => some d
  | .ok data =>
    match (d.sys.pagerOf x).write 0 data with
    | .error _ => none
    | .ok p => some { d.put i x ⟨p, d.ncache⟩ with unsaved := false }

def step (d : TableDb) : Event → Option TableDb
  | .open cacheSize => d.open lib i cacheSize
  | .load n => d.load i n
  | .begin => (d.sys.begin i).map fun sys => { d with sys := sys, snapshot := none }
  | .refuse => d.statement i fun _ d => some d
  | .call name c rowCount nextRowid => d.statement i (call i name c rowCount nextRowid)
  | .create name columns => d.statement i (create i name columns)
  | .drop name => d.statement i (drop i name)
  | .index key indexes => d.statement i fun _ => index key indexes
  | .save => d.statement i (save lib i)
  | .commit => (d.sys.commit i).map fun sys => { d with sys := sys, snapshot := none, saved := d.maps }
  | .rollback => (d.sys.rollback i).map fun sys =>
    { d with
      sys := sys, catalog := d.snapshot.getD d.catalog, snapshot := none, unsaved := false, raised := false, maps := d.saved }
  | .checkpoint => (d.sys.checkpoint i).map fun sys => { d with sys := sys }
  | .close checkpoint => (d.sys.close i checkpoint).map fun sys => { d with sys := sys }
  | .kill file => (d.sys.happens (.kill file)).map fun sys => { d with sys := sys }
  | .killCommit kept file => (d.sys.commit i).bind fun done => (d.sys.happens (.killCommit i kept file)).map fun sys =>
    { d with sys := sys, saved := if d.sys.log.length + kept < done.log.length then d.saved else d.maps }
  | .killReset a kept => (d.sys.happens (.killReset a kept)).map fun sys => { d with sys := sys }

/-- A rollback brings back no image whose cached node was changed since it was decoded. -/
def CacheFits (t : PyTree) : Prop :=
  ∀ n im nd, t.ncache.lookup n = some (im, nd) → ∀ im', t.pager.rollbackTxn.cached n = some im' → im.id = im'.id →
    nodeFromBytes im'.bytes = .ok nd

def Ok (d : TableDb) : Event → Prop
  | .open _ | .load _ | .begin | .refuse | .create _ _ | .drop _ | .index _ _ | .checkpoint => True
  | .call name c _ _ => d.raised = false → c.Legal ∧ ∀ x m, d.sys.sess.lookup i = some x → d.catalog.get name = .ok m →
      ¬c.SplitsLast (d.tree x) m.rootPage
  | .save => d.catalog.Reloads lib
  | .commit => (d.raised = false ∧ d.unsaved = false) ∧ System.Uses i d.sys (.commit i)
  | .rollback => System.Uses i d.sys (.rollback i) ∧ ∀ x, d.sys.sess.lookup i = some x → CacheFits (d.tree x)
  | .close checkpoint => System.Uses i d.sys (.close i checkpoint)
  | .kill file => d.sys.Leaves file
  | .killCommit kept file => (d.raised = false ∧ d.unsaved = false) ∧ System.CrashOk i d.sys (.killCommit i kept file)
  | .killReset a _ => System.Uses i d.sys a

/-! ### The invariant -/

/-- The pages with the images `C` have the catalog `c`, and its tables the pairs of `maps`. -/
structure Shows (C : Nat → Bytes) (c : Catalog) (maps : TableMaps) : Prop where
  catalog : Catalog.load lib (C 0) = .ok c.reloaded
  tables : ∃ n tree, TableTrees (pagesOf C n) c.reloaded maps tree

/-- The catalog and the tree of a session have the pairs of `maps`, and the catalog is saved. -/
structure Carries (catalog : Catalog) (raised unsaved : Bool) (maps : TableMaps) (t : PyTree) : Prop where
  loaded : t.Loaded
  tables : raised = false → t.Reads t.store ∧ ∃ tree, TableTrees t.store catalog maps tree
  saved : raised = false → unsaved = false → Catalog.load lib (t.pager.content 0) = .ok catalog.reloaded

/-- `_snapshot` has the tables of `c`. -/
structure Undoes (snapshot : Option Catalog) (catalog c : Catalog) : Prop where
  tables : (snapshot.getD catalog).tables = c.tables
  free : ∀ s, snapshot = some s → s.freePages = []

/-- What is held of the session that is open; `c` is the catalog that was committed. -/
structure Live (d : TableDb) (c : Catalog) (x : Session) : Prop where
  carries : Carries lib d.catalog d.raised d.unsaved d.maps (d.tree x)
  undoes : Undoes d.snapshot d.catalog c
  /-- Nothing was changed since the last commit. -/
  untouched : d.snapshot = none → (d.raised = false ∧ d.unsaved = false) ∧ d.maps = d.saved ∧
    ∀ n, (d.tree x).pager.content n = d.sys.committed n
  idle : x.inTxn = false → d.snapshot = none

structure Inv (d : TableDb) : Prop where
  backed : ∃ pend, System.Backed i d.sys pend
  whole : pageSize ∣ d.sys.orig.length
  shows : ∃ c, Shows lib d.sys.committed c d.saved ∧ ∀ x, d.sys.sess.lookup i = some x → Live lib d c x

/-- The tree of a session in its transaction. -/
def Within (d : TableDb) (pend : List Batch) (t : PyTree) : Prop :=
  (Pager.Backed d.sys.committed d.sys.Stored (Batch.logged pend) t.pager ∧ t.pager.touched.isSome = true) ∧ t.Loaded

/-- A session in a transaction whose statement goes on. -/
structure Working (d : TableDb) (x : Session) (pend : List Batch) (c : Catalog) : Prop where
  backed : System.Backed i d.sys pend
  whole : pageSize ∣ d.sys.orig.length
  shows : Shows lib d.sys.committed c d.saved
  session : d.sys.sess.lookup i = some x
  inTxn : x.inTxn = true
  carries : Carries lib d.catalog d.raised d.unsaved d.maps (d.tree x)
  undoes : Undoes d.snapshot d.catalog c
  ensured : d.snapshot.isSome = true

section

variable {lib : JsonLib} {i : Nat} {d d' : TableDb} {s : System} {x y : Session} {c c' : Catalog} {maps : TableMaps}
  {pend : List Batch} {t t' : PyTree} {p : Pager} {raised unsaved : Bool}

/-! ### The tables on the committed pages -/

/-- A session that reads the committed pages. -/
theorem Shows.carries (h : Shows lib s.committed c maps) (hwhole : pageSize ∣ s.orig.length) (hr : t.Reads t.store)
    (hC : ∀ n, t.pager.content n = s.committed n) (hnum : ∀ n, s.Stored n → n < t.pager.numPages) (ht : c'.tables = c.tables)
    (hfree : c'.freePages = []) : Carries lib c' false false maps t where
  loaded := hr.loaded
  tables _ := by
    obtain ⟨n, tree, htrees⟩ := h.tables
    have hstored : ∀ key e, c.reloaded.entry key = some e → ∀ p ∈ (tree key).pages, p < t.pager.numPages := by
      intro key e he p hp
      refine hnum p (by_contra fun hout => ?_)
      exact (htrees.table key e he).1.nonzero hp (System.committed_of_not_stored hwhole hout)
    have hpages := htrees.resize rfl hr.live.numPages_pos hstored
    refine ⟨hr, tree, ?_⟩
    have hstore : t.store = pagesOf s.committed t.pager.numPages := by
      rw [PyTree.store, funext hC, pagesOf]
    rw [hstore]
    exact hpages.of_tables ht (by rw [hfree]; exact List.nil_sublist _)
  saved _ _ := by rw [hC, h.catalog, Catalog.reloaded_congr ht]

/-! ### What a session does to the pages -/

theorem Carries.of_raised (h : t.Loaded) : Carries lib c true unsaved maps t :=
  ⟨h, fun hr => (by cases hr), fun hr => (by cases hr)⟩

/-- The tables of a session whose catalog is not saved. -/
theorem Carries.of_tables (h : raised = false → (t.Reads t.store ∧ ∃ tree, TableTrees t.store c maps tree)) (hl : t.Loaded) :
    Carries lib c raised true maps t :=
  ⟨hl, h, fun _ hu => by cases hu⟩

/-- Another state of the pager with the same pool and pages. -/
theorem Carries.pager (h : Carries lib c raised unsaved maps t) (hl : p.Live) (hc : p.Clean)
    (hcached : ∀ n, p.cached n = t.pager.cached n) (hcontent : ∀ n, p.content n = t.pager.content n)
    (hnum : p.numPages = t.pager.numPages) (hid : p.nextId = t.pager.nextId) :
    Carries lib c raised unsaved maps ⟨p, t.ncache⟩ where
  loaded := h.loaded.pager hid.ge hnum.ge
  tables hr := by
    obtain ⟨hreads, htrees⟩ := h.tables hr
    obtain ⟨hreads', hstore⟩ := hreads.pager hl hc hcached hcontent hnum hid.ge
    exact ⟨hreads', hstore ▸ htrees⟩
  saved hr hu := by
    change Catalog.load lib (p.content 0) = _
    rw [hcontent]
    exact h.saved hr hu

/-- Reading a page. -/
theorem Carries.load (h : Carries lib c raised unsaved maps t) (hl : t.pager.Live) (hc : t.pager.Clean) (n : Nat) :
    Carries lib c raised unsaved maps (PyTree.ended (PyTree.load n t)) ∧
      ∀ k, (PyTree.ended (PyTree.load n t)).pager.content k = t.pager.content k := by
  have hcontent := PyTree.ended_of_post (R := fun u => ∀ k, u.pager.content k = t.pager.content k)
    (PyTree.post_load (t := t) (n := n) (Q := fun p => ∀ k, p.content k = t.pager.content k) (fun _ => rfl) fun im p hg k =>
      (Pager.fetches_get_live hl hg).content_eq fun im' hd => hd.2.2.2 (hc k im' hd.1 hd.2.2.1))
  refine ⟨⟨PyTree.ended_of_post (h.loaded.load hl n), fun hr => ?_, fun hr hu => ?_⟩, hcontent⟩
  · obtain ⟨hreads, htrees⟩ := h.tables hr
    obtain ⟨hreads', hstore⟩ := PyTree.ended_of_post (R := fun u => u.Reads u.store ∧ u.store = t.store) (hreads.post_load n)
    exact ⟨hreads', hstore.symm ▸ htrees⟩
  · rw [hcontent]
    exact h.saved hr hu

/-- `catalog.save`. -/
theorem Carries.save (h : Carries lib c raised unsaved maps t) (hl : t.pager.Live) (hclean : t.pager.Clean) (hc : c.Reloads lib)
    {data : Bytes} (hs : c.save lib = .ok data) (hw : t.pager.write 0 data = .ok p) :
    Carries lib c raised false maps ⟨p, t.ncache⟩ := by
  obtain ⟨hst, -⟩ := hl.write hw
  have hnum : t.pager.numPages ≤ p.numPages := hst.numPages_eq ▸ Nat.le_max_left ..
  refine ⟨h.loaded.pager ((Nat.le_succ _).trans hst.nextId_le) hnum, fun hr => ?_, fun _ _ => ?_⟩
  · obtain ⟨hreads, tree, htrees⟩ := h.tables hr
    -- page 0 is in no tree
    refine ⟨hreads.writePage hw, tree, htrees.frame (fun key e he n hn => ?_) hnum rfl⟩
    have hpos := (htrees.pages_lt he hn).1
    have hclean' : (t.pager.newImage (padTo pageSize data)).2.Clean := hclean
    exact congrArg nodeFromBytes (hst.content_other hclean' hpos.ne')
  · have hlen : data.length = pageSize := Catalog.length_save hs
    have hpad : padTo pageSize data = data := by rw [padTo, hlen, Nat.sub_self, List.replicate_zero, List.append_nil]
    change Catalog.load lib (p.content 0) = _
    rw [hst.content_self]
    change Catalog.load lib (padTo pageSize data) = _
    rw [hpad, Catalog.load_save hs hc.1 hc.2 (by decide)]
    rfl

theorem keeps_backed {C : Nat → Bytes} {stored : Nat → Prop} {logged : List Nat} :
    Keeps fun p => Pager.Backed C stored logged p ∧ p.touched.isSome = true where
  get := by
    intro p p' n im h hg
    exact ⟨h.1.get hg, (Pager.fetches_get h.1.wf hg).touched_eq ▸ h.2⟩
  write := by
    intro p p' n data h hw
    refine ⟨h.1.write h.2 hw, ?_⟩
    rw [(Pager.writes_write h.1.wf h.2 hw).touched_eq, Option.isSome_map]
    exact h.2
  allocate := by
    intro p h
    refine ⟨h.1.allocate h.2, ?_⟩
    rw [(Pager.writes_allocate h.1.wf h.2).touched_eq, Option.isSome_map]
    exact h.2

/-! ### Statements -/

theorem Inv.of_session (hb : System.Backed i d.sys pend) (hw : pageSize ∣ d.sys.orig.length)
    (hs : Shows lib d.sys.committed c d.saved) (hx : d.sys.sess.lookup i = some x) (hl : Live lib d c x) : Inv lib i d where
  backed := ⟨pend, hb⟩
  whole := hw
  shows := ⟨c, hs, fun y hy => by
    obtain rfl := Option.some.inj (hx.symm.trans hy)
    exact hl⟩

theorem Inv.of_none (hb : System.Backed i d.sys pend) (hw : pageSize ∣ d.sys.orig.length)
    (hs : Shows lib d.sys.committed c d.saved) (hx : d.sys.sess.lookup i = none) : Inv lib i d where
  backed := ⟨pend, hb⟩
  whole := hw
  shows := ⟨c, hs, fun y hy => by cases hx.symm.trans hy⟩

/-- The tables that a rollback brings back stay when the catalog changes. -/
theorem Undoes.congr {snapshot : Option Catalog} {catalog catalog' : Catalog} (h : Undoes snapshot catalog c)
    (hs : snapshot.isSome = true) : Undoes snapshot catalog' c := by
  obtain ⟨s, rfl⟩ := Option.isSome_iff_exists.1 hs
  exact ⟨h.tables, h.free⟩

theorem Undoes.ensure {snapshot : Option Catalog} {catalog : Catalog} (h : Undoes snapshot catalog c) :
    Undoes (some (snapshot.getD catalog.reloaded)) catalog c := by
  cases snapshot with
  | none => exact ⟨h.tables, fun s hs => Option.some.inj hs ▸ rfl⟩
  | some s => exact ⟨h.tables, h.free⟩

/-- A part of a statement begins in a transaction with a snapshot. -/
theorem Inv.working (h : Inv lib i d) {f : Session → TableDb → Option TableDb} (ht : d.statement i f = some d') :
    ∃ x pend c, Working lib i d.ensureSnapshot x pend c ∧ f x d.ensureSnapshot = some d' := by
  obtain ⟨⟨pend, hb⟩, hw, c, hs, hlive⟩ := h
  unfold statement at ht
  split at ht
  · cases ht
  rename_i x hx
  split at ht
  swap
  · cases ht
  have hl := hlive x hx
  exact ⟨x, pend, c, ⟨hb, hw, hs, hx, ‹_›, hl.carries, hl.undoes.ensure, rfl⟩, ht⟩

namespace Working

theorem snapshot_ne_none (h : Working lib i d x pend c) : d.snapshot ≠ none := fun hn => by
  have hsome := h.ensured
  rw [hn] at hsome
  cases hsome

/-- The statement has read and written pages. -/
theorem put (h : Working lib i d x pend c) (hp : Within d pend t) (hc : Carries lib c' raised unsaved maps t) :
    Inv lib i { d.put i x t with catalog := c', raised := raised, unsaved := unsaved, maps := maps } := by
  refine .of_session (h.backed.put h.session hp.1.1 (hp.1.2.trans h.inTxn.symm)) h.whole h.shows (System.lookup_store_self ..) ?_
  exact ⟨hc, h.undoes.congr h.ensured, fun hn => absurd hn h.snapshot_ne_none, fun hn => by cases h.inTxn.symm.trans hn⟩

/-- The statement has changed the catalog. -/
theorem keep (h : Working lib i d x pend c) (hc : Carries lib c' raised unsaved maps (d.tree x)) :
    Inv lib i { d with catalog := c', raised := raised, unsaved := unsaved, maps := maps } := by
  refine .of_session h.backed h.whole h.shows h.session ?_
  exact ⟨hc, h.undoes.congr h.ensured, fun hn => absurd hn h.snapshot_ne_none, fun hn => by cases h.inTxn.symm.trans hn⟩

theorem within (h : Working lib i d x pend c) : Within d pend (d.tree x) :=
  ⟨⟨h.backed.session x h.session, h.backed.touched_isSome h.session h.inTxn⟩, h.carries.loaded⟩

/-- However a page program of the statement ends. -/
theorem exec (h : Working lib i d x pend c) {α : Type} (prog : TreeM (Option Nat) α) :
    Within d pend (PyTree.ended (prog.exec (d.tree x))) :=
  PyTree.ended_of_post (keeps_backed.exec_loaded (fun h => h.1.wf.live) prog h.within)

/-- However a call of the tree ends. -/
theorem after (h : Working lib i d x pend c) (root : Nat) (call : Call) : Within d pend ((d.tree x).after root call) :=
  PyTree.after_of_exec (fun prog _ h => keeps_backed.exec_loaded (fun h => h.1.wf.live) prog h) h.within call

end Working

theorem Inv.call (h : Inv lib i d) {name : String} {call : Call} {rowCount : Nat} {nextRowid : Int}
    (hok : Ok lib i d (.call name call rowCount nextRowid)) (ht : d.step lib i (.call name call rowCount nextRowid) = some d') :
    Inv lib i d' := by
  obtain ⟨x, pend, c, hwork, ht⟩ := h.working ht
  have hok : d.ensureSnapshot.raised = false → call.Legal ∧ ∀ x m, d.ensureSnapshot.sys.sess.lookup i = some x →
      d.ensureSnapshot.catalog.get name = .ok m → ¬call.SplitsLast (d.ensureSnapshot.tree x) m.rootPage := hok
  generalize d.ensureSnapshot = d at hwork ht hok
  unfold TableDb.call at ht
  split at ht
  · obtain rfl := Option.some.inj ht
    exact hwork.keep hwork.carries
  rename_i m hget
  have hafter := hwork.after m.rootPage call
  split at ht
  · obtain rfl := Option.some.inj ht
    exact hwork.put hafter (.of_raised hafter.2)
  rename_i r t root hcall
  obtain rfl := PyTree.eq_after hcall
  have htables : d.raised = false → ∃ tree', ((d.tree x).after m.rootPage call).Reads ((d.tree x).after m.rootPage call).store ∧
      ∀ e' : TableMeta, e'.rootPage = root → e'.name = m.name → TableTrees ((d.tree x).after m.rootPage call).store
        (d.catalog.setTable name.toLower e')
        (Function.update d.maps name.toLower ((d.maps name.toLower).map call.apply)) tree' := by
    intro hr
    obtain ⟨hlegal, hlast⟩ := hok hr
    obtain ⟨hreads, tree, htrees⟩ := hwork.carries.tables hr
    have he := Catalog.get_eq_ok.1 hget
    obtain ⟨-, -, rows, hrows, -⟩ := htrees.table _ m he
    obtain ⟨hreads', tree', htrees'⟩ := htrees.call hreads he hrows hlegal (hlast x m hwork.session hget) hcall
    rw [hrows]
    exact ⟨tree', hreads', htrees'⟩
  split at ht
  · obtain rfl := Option.some.inj ht
    refine hwork.put hafter (.of_tables (fun hr => ?_) hafter.2)
    obtain ⟨tree', hreads', htrees'⟩ := htables hr
    have hsame := htrees' m (PyTree.root_of_duplicate hcall).symm rfl
    rw [Catalog.setTable_self (Catalog.mem_of_get hget)] at hsame
    exact ⟨hreads', tree', hsame⟩
  · obtain rfl := Option.some.inj ht
    refine hwork.put hafter (.of_tables (fun hr => ?_) hafter.2)
    obtain ⟨tree', hreads', htrees'⟩ := htables hr
    exact ⟨hreads', tree', htrees' _ rfl rfl⟩

theorem Inv.create (h : Inv lib i d) {name : String} {columns : List ColumnDef}
    (ht : d.step lib i (.create name columns) = some d') : Inv lib i d' := by
  obtain ⟨x, pend, c, hwork, ht⟩ := h.working ht
  generalize d.ensureSnapshot = d at hwork ht
  have hafter := hwork.exec (BTree.newRoot d.catalog.freePages)
  unfold TableDb.create at ht
  simp only at ht
  split at ht
  · rename_i e t hx
    rw [hx] at hafter
    obtain rfl := Option.some.inj ht
    exact hwork.put hafter (.of_raised hafter.2)
  rename_i root t hx
  rw [hx] at hafter
  split at ht
  · obtain rfl := Option.some.inj ht
    refine hwork.put hafter ⟨hafter.2, fun hr => ?_, fun hr hu => ?_⟩ <;> obtain ⟨hreads, tree, htrees⟩ := hwork.carries.tables hr
    · obtain ⟨hreads', htrees', -⟩ := htrees.newRoot hreads hx
      exact ⟨hreads', tree, htrees'⟩
    · rw [content_newRoot hreads (fun p hp => (htrees.owners.free p hp).1) hx]
      exact hwork.carries.saved hr hu
  · rename_i hnew
    obtain rfl := Option.some.inj ht
    refine hwork.put hafter (.of_tables (fun hr => ?_) hafter.2)
    obtain ⟨hreads, tree, htrees⟩ := hwork.carries.tables hr
    obtain ⟨hreads', -, htrees'⟩ := htrees.newRoot hreads hx
    exact ⟨hreads', htrees' (TableMeta.mk name columns root 0 1 []) (Option.not_isSome_iff_eq_none.1 hnew) rfl⟩

theorem Inv.drop (h : Inv lib i d) {name : String} (ht : d.step lib i (.drop name) = some d') : Inv lib i d' := by
  obtain ⟨x, pend, c, hwork, ht⟩ := h.working ht
  generalize d.ensureSnapshot = d at hwork ht
  unfold TableDb.drop at ht
  split at ht
  · obtain rfl := Option.some.inj ht
    exact hwork.keep hwork.carries
  rename_i m hget
  have hafter := hwork.exec (BTree.collectTreePages ((d.tree x).pager.numPages + 1) [] [m.rootPage])
  split at ht
  · rename_i e t hx
    rw [hx] at hafter
    obtain rfl := Option.some.inj ht
    exact hwork.put hafter (.of_raised hafter.2)
  rename_i pages t hx
  rw [hx] at hafter
  obtain rfl := Option.some.inj ht
  refine hwork.put hafter (.of_tables (fun hr => ?_) hafter.2)
  obtain ⟨hreads, tree, htrees⟩ := hwork.carries.tables hr
  have he := Catalog.get_eq_ok.1 hget
  have hname := htrees.named _ m he
  obtain ⟨pages', t', hx', hreads', hstore, hperm⟩ := htrees.collect hreads he
  cases hx'.symm.trans hx
  rw [hname]
  exact ⟨hreads', tree, hstore ▸ htrees.free he hperm rfl rfl⟩

theorem Inv.index (h : Inv lib i d) {key : String} {indexes : List (String × String)}
    (ht : d.step lib i (.index key indexes) = some d') : Inv lib i d' := by
  obtain ⟨x, pend, c, hwork, ht⟩ := h.working ht
  generalize d.ensureSnapshot = d at hwork ht
  unfold TableDb.index at ht
  split at ht
  · obtain rfl := Option.some.inj ht
    exact hwork.keep hwork.carries
  rename_i m hm
  obtain rfl := Option.some.inj ht
  refine hwork.keep (.of_tables (fun hr => ?_) hwork.carries.loaded)
  obtain ⟨hreads, tree, htrees⟩ := hwork.carries.tables hr
  exact ⟨hreads, tree, htrees.setEntry hm rfl rfl⟩

theorem Inv.save (h : Inv lib i d) (hok : Ok lib i d .save) (ht : d.step lib i .save = some d') : Inv lib i d' := by
  obtain ⟨x, pend, c, hwork, ht⟩ := h.working ht
  have hreloads : d.ensureSnapshot.catalog.Reloads lib := hok
  generalize d.ensureSnapshot = d at hwork ht hreloads
  unfold TableDb.save at ht
  split at ht
  · obtain rfl := Option.some.inj ht
    exact hwork.keep hwork.carries
  rename_i data hdata
  split at ht
  · cases ht
  rename_i p hwrite
  obtain rfl := Option.some.inj ht
  obtain ⟨⟨hp, htouched⟩, hloaded⟩ := hwork.within
  have hsaved := hwork.carries.save hp.wf.live hp.clean hreloads hdata hwrite
  exact hwork.put ⟨keeps_backed.write ⟨hp, htouched⟩ hwrite, hsaved.loaded⟩ hsaved

/-! ### Transactions -/

theorem Inv.open (h : Inv lib i d) {cacheSize : Nat} (ht : d.open lib i cacheSize = some d') : Inv lib i d' := by
  obtain ⟨⟨pend, hb⟩, hw, c, hs, -⟩ := h
  unfold TableDb.open at ht
  split at ht
  · cases ht
  rename_i sys hsys
  split at ht
  · cases ht
  rename_i x hx
  split at ht
  · cases ht
  rename_i im p hg
  split at ht
  · cases ht
  rename_i catalog hcat
  obtain rfl := Option.some.inj ht
  obtain ⟨hb', hcommitted⟩ := hb.openFiles hsys
  have hin := System.lookup_openFiles hsys hx
  have hw' : pageSize ∣ sys.orig.length := by
    obtain ⟨-, hc, file, log, rfl⟩ := System.openFiles_eq hsys
    exact hw
  have hs' : Shows lib sys.committed c d.saved := hcommitted ▸ hs
  have hf := Pager.fetches_get (hb'.session x hx).wf hg
  have hp := (hb'.session x hx).get hg
  have htouched : p.touched = none := hf.touched_eq.trans (hb'.touched_eq_none hx hin)
  have hcontent : ∀ n, p.content n = sys.committed n := fun n => by
    rw [← hp.wf.base_eq_content htouched, hp.base]
  obtain rfl : catalog = c.reloaded := by
    rw [hf.bytes_eq, hb'.content_eq hx hin, hs'.catalog] at hcat
    exact (Except.ok.inj hcat).symm
  refine .of_session (hb'.put hx hp (by rw [htouched, hin]; rfl)) hw' hs' (System.lookup_store_self ..)
    ⟨?_, ⟨rfl, fun s hs => by cases hs⟩, fun _ => ⟨⟨rfl, rfl⟩, rfl, hcontent⟩, fun _ => rfl⟩
  exact hs'.carries hw' (PyTree.reads_new hp.wf.live hp.clean) hcontent hp.numPages rfl rfl

theorem Inv.load (h : Inv lib i d) {n : Nat} (ht : d.load i n = some d') : Inv lib i d' := by
  obtain ⟨⟨pend, hb⟩, hw, c, hs, hlive⟩ := h
  unfold TableDb.load at ht
  split at ht
  · cases ht
  rename_i x hx
  have hl := hlive x hx
  have hp : Pager.Backed _ _ _ (d.tree x).pager := hb.session x hx
  obtain ⟨hcarries, hcontent⟩ := hl.carries.load hp.wf.live hp.clean n
  have hpager := PyTree.ended_of_post (PyTree.post_load (t := d.tree x) (n := n)
    (Q := fun p => Pager.Backed d.sys.committed d.sys.Stored (Batch.logged pend) p ∧ p.touched = (d.sys.pagerOf x).touched)
    ⟨hp, rfl⟩ fun im p hg => ⟨hp.get hg, (Pager.fetches_get hp.wf hg).touched_eq⟩)
  obtain rfl : d' = d.put i x (PyTree.ended (PyTree.load n (d.tree x))) := by
    rcases hr : PyTree.load n (d.tree x) with ⟨nd, u⟩ | ⟨e, u⟩ <;> rw [hr] at ht <;> exact (Option.some.inj ht).symm
  have htouched : (PyTree.ended (PyTree.load n (d.tree x))).pager.touched.isSome = x.inTxn := by
    rw [hpager.2]
    exact (hb.tracks x hx).inTxn_eq.symm
  refine .of_session (hb.put hx hpager.1 htouched) hw hs (System.lookup_store_self ..)
    ⟨hcarries, hl.undoes, fun hn => ?_, hl.idle⟩
  obtain ⟨hflags, hmaps, hsame⟩ := hl.untouched hn
  exact ⟨hflags, hmaps, fun k => (hcontent k).trans (hsame k)⟩

theorem Inv.begin (h : Inv lib i d) {sys : System} (ht : d.sys.begin i = some sys) :
    Inv lib i { d with sys := sys, snapshot := none } := by
  obtain ⟨⟨pend, hb⟩, hw, c, hs, hlive⟩ := h
  have hb' := hb.begin ht
  obtain ⟨x, hx, hin, htouched, rfl⟩ := System.begin_cases ht
  have hl := hlive x hx
  have hp := (hb.session x hx).begin htouched
  have hsnap := hl.idle hin
  have hcarries := hl.carries.pager hp.wf.live hp.clean (fun _ => rfl) (fun _ => rfl) rfl rfl
  exact .of_session hb' hw hs (System.lookup_store_self ..)
    ⟨hcarries, hsnap ▸ hl.undoes, fun _ => hl.untouched hsnap, fun hno => by cases hno⟩

/-- What a commit leaves has the maps of the session. -/
theorem Live.shows_commit (hb : System.Backed i d.sys pend) (hl : Live lib d c x) (hx : d.sys.sess.lookup i = some x)
    (hflags : d.raised = false ∧ d.unsaved = false) {sys : System} {pend' : List Batch} (hb' : System.Backed i sys pend')
    (ht : d.sys.commit i = some sys) :
    Shows lib sys.committed d.catalog d.maps ∧ ∀ n, (d.tree x).pager.content n = sys.committed n := by
  obtain ⟨y, hy, hout, hpager⟩ := hb.lookup_commit hx ht
  have hcontent : ∀ n, (d.tree x).pager.content n = sys.committed n := fun n => by
    rw [← hb'.content_eq hy hout, hpager]
    rfl
  obtain ⟨-, tree, htrees⟩ := hl.carries.tables hflags.1
  have hstore : (d.tree x).store = pagesOf sys.committed (d.tree x).pager.numPages := by
    rw [PyTree.store, funext hcontent, pagesOf]
  have hreloaded : TableTrees (d.tree x).store d.catalog.reloaded d.maps tree := htrees.of_tables rfl (List.nil_sublist _)
  refine ⟨⟨?_, _, tree, hstore ▸ hreloaded⟩, hcontent⟩
  rw [← hcontent]
  exact hl.carries.saved hflags.1 hflags.2

theorem exists_backed_commit (hb : System.Backed i s pend) (hu : System.Uses i s (.commit i)) {sys : System}
    (ht : s.commit i = some sys) : ∃ pend', System.Backed i sys pend' := by
  obtain ⟨pend', hb', -⟩ := hb.step (a := .commit i) hu ht
  exact ⟨pend', hb'⟩

theorem Inv.commit (h : Inv lib i d) (hok : Ok lib i d .commit) {sys : System} (ht : d.sys.commit i = some sys) :
    Inv lib i { d with sys := sys, snapshot := none, saved := d.maps } := by
  obtain ⟨⟨pend, hb⟩, hw, c, hs, hlive⟩ := h
  obtain ⟨hflags, hu⟩ := hok
  obtain ⟨pend', hb'⟩ := exists_backed_commit hb hu ht
  have horig : sys.orig = d.sys.orig := System.orig_step (a := .commit i) ht
  obtain ⟨x, hx, -⟩ := System.commit_cases_of_tracks (fun x hx => ⟨[], hb.tracks x hx⟩) ht
  have hl := hlive x hx
  obtain ⟨y, hy, hout, hpager⟩ := hb.lookup_commit hx ht
  have hp := hb'.session y hy
  rw [hpager] at hp
  have hcarries := hl.carries.pager hp.wf.live hp.clean (fun _ => rfl) (fun _ => rfl) rfl rfl
  obtain ⟨hshows, hcontent⟩ := hl.shows_commit hb hx hflags hb' ht
  have htree : TableDb.tree { d with sys := sys, snapshot := none, saved := d.maps } y =
      ⟨{ d.sys.pagerOf x with touched := none, shadow := ∅ }, d.ncache⟩ := by rw [TableDb.tree, hpager]
  refine .of_session (c := d.catalog) hb' (horig ▸ hw) hshows hy
    ⟨?_, ⟨rfl, fun s hs => by cases hs⟩, fun _ => ⟨hflags, rfl, ?_⟩, fun _ => rfl⟩
  · rw [htree]
    exact hcarries
  · rw [htree]
    exact hcontent

/-- A page whose shadow is not the image that the node cache was filled from is decoded again. -/
theorem CacheFits.of_shadow {t : PyTree} (h : t.Reads t.store) (hs : ∀ n im, t.pager.shadow.lookup n = some (some im) →
    ∀ im' nd, t.ncache.lookup n = some (im', nd) → im'.id ≠ im.id) : CacheFits t := by
  intro n im nd hn im' hc hid
  rw [Pager.cached_rollbackTxn] at hc
  cases hsh : t.pager.shadow.lookup n with
  | none =>
    rw [hsh] at hc
    have hnd : nodeFromBytes (t.pager.content n) = .ok nd := h.hit n im nd hn (by simp [PyTree.store]) im' hc hid
    rwa [Pager.content_of_cached hc] at hnd
  | some o =>
    rw [hsh] at hc
    obtain rfl : o = some im' := hc
    exact absurd hid (hs n im' hsh im nd hn)

/-- A rollback brings back the committed pages. -/
theorem reads_rollback (h : t.Loaded) (hl : t.pager.rollbackTxn.Live) (hc : t.pager.rollbackTxn.Clean) (hfits : CacheFits t) :
    PyTree.Reads ⟨t.pager.rollbackTxn, t.ncache⟩ (PyTree.store ⟨t.pager.rollbackTxn, t.ncache⟩) where
  live := hl
  clean := hc
  numPages := rfl
  nodes _ := rfl
  loaded := h
  hit n im nd hn _ im' hc' hid := by
    change nodeFromBytes (t.pager.rollbackTxn.content n) = .ok nd
    rw [Pager.content_of_cached hc']
    exact hfits n im nd hn im' hc' hid

theorem Inv.rollback (h : Inv lib i d) (hok : Ok lib i d .rollback) {sys : System} (ht : d.sys.rollback i = some sys) :
    Inv lib i { d with
      sys := sys, catalog := d.snapshot.getD d.catalog, snapshot := none, unsaved := false, raised := false,
      maps := d.saved } := by
  obtain ⟨⟨pend, hb⟩, hw, c, hs, hlive⟩ := h
  obtain ⟨⟨-, hu⟩, hfits⟩ := hok
  have hb' := hb.rollback hu ht
  obtain ⟨x, hx, -, rfl⟩ := System.rollback_cases ht
  have hl := hlive x hx
  have hp := (hb.session x hx).rollback (hu x hx)
  have hcontent : ∀ n, (d.sys.pagerOf x).rollbackTxn.content n = d.sys.committed n := fun n => by
    rw [← hp.wf.base_eq_content rfl, hp.base]
  have hreads := reads_rollback hl.carries.loaded hp.wf.live hp.clean (hfits x hx)
  refine .of_session hb' hw hs (System.lookup_store_self ..)
    ⟨?_, ⟨hl.undoes.tables, fun s hs => by cases hs⟩, fun _ => ⟨⟨rfl, rfl⟩, rfl, hcontent⟩, fun _ => rfl⟩
  cases hsnap : d.snapshot with
  | some snapshot =>
    have hundoes := hl.undoes
    rw [hsnap] at hundoes
    exact hs.carries hw hreads hcontent hp.numPages hundoes.tables (hundoes.free snapshot rfl)
  | none =>
    -- the pages are those of the session
    obtain ⟨hflags, hmaps, hsame⟩ := hl.untouched hsnap
    obtain ⟨-, tree, htrees⟩ := hl.carries.tables hflags.1
    have hstore : PyTree.store ⟨(d.sys.pagerOf x).rollbackTxn, d.ncache⟩ = (d.tree x).store := by
      rw [PyTree.store, PyTree.store, funext hcontent, funext hsame]
      rfl
    refine ⟨hl.carries.loaded, fun _ => ⟨hreads, tree, ?_⟩, fun _ _ => ?_⟩
    · rw [← hmaps]
      exact hstore ▸ htrees
    · change Catalog.load lib ((d.sys.pagerOf x).rollbackTxn.content 0) = _
      rw [hcontent, ← hsame]
      exact hl.carries.saved hflags.1 hflags.2

theorem Inv.checkpoint (h : Inv lib i d) {sys : System} (ht : d.sys.checkpoint i = some sys) :
    Inv lib i { d with sys := sys } := by
  obtain ⟨⟨pend, hb⟩, hw, c, hs, hlive⟩ := h
  obtain ⟨hb', hcommitted⟩ := hb.checkpoint ht
  have hs' : Shows lib sys.committed c d.saved := hcommitted ▸ hs
  obtain ⟨x, p, hx, hin, -, hf, rfl⟩ := System.checkpoint_cases ht
  have hl := hlive x hx
  have hp := (hb.session x hx).flush (hb.touched_eq_none hx hin) hf
  have hwf := (hb.session x hx).wf
  obtain ⟨hcached, -, hnum, -, -⟩ := Pager.flush_fields hwf hf
  have hcontent : ∀ n, p.content n = (d.sys.pagerOf x).content n := fun n => by
    rw [Pager.content_flush hwf (hb.session x hx).clean hf]
  have hcarries := hl.carries.pager hp.wf.live hp.clean hcached hcontent hnum (Pager.nextId_flush hwf hf)
  refine .of_session hb' hw hs' (System.lookup_store_self ..) ⟨hcarries, hl.undoes, fun hn => ?_, hl.idle⟩
  obtain ⟨hflags, hmaps, hsame⟩ := hl.untouched hn
  refine ⟨hflags, hmaps, fun n => ?_⟩
  rw [hcommitted, ← hsame n]
  exact hcontent n

theorem Inv.step (h : Inv lib i d) {e : Event} (hok : Ok lib i d e) (ht : d.step lib i e = some d') : Inv lib i d' := by
  cases e with
  | «open» cacheSize => exact h.open ht
  | load n => exact h.load ht
  | begin =>
    obtain ⟨sys, hsys, rfl⟩ := Option.map_eq_some_iff.1 ht
    exact h.begin hsys
  | refuse =>
    obtain ⟨x, pend, c, hwork, ht⟩ := h.working ht
    obtain rfl := Option.some.inj ht
    exact hwork.keep hwork.carries
  | call name c rowCount nextRowid => exact h.call hok ht
  | create name columns => exact h.create ht
  | drop name => exact h.drop ht
  | index key indexes => exact h.index ht
  | save => exact h.save hok ht
  | commit =>
    obtain ⟨sys, hsys, rfl⟩ := Option.map_eq_some_iff.1 ht
    exact h.commit hok hsys
  | rollback =>
    obtain ⟨sys, hsys, rfl⟩ := Option.map_eq_some_iff.1 ht
    exact h.rollback hok hsys
  | checkpoint =>
    obtain ⟨sys, hsys, rfl⟩ := Option.map_eq_some_iff.1 ht
    exact h.checkpoint hsys
  | close checkpoint =>
    obtain ⟨sys, hsys, rfl⟩ := Option.map_eq_some_iff.1 ht
    obtain ⟨⟨pend, hb⟩, hw, c, hs, -⟩ := h
    obtain ⟨pend', hb', -, hcommitted⟩ := hb.close hok.2 hsys
    have horig : sys.orig = d.sys.orig := System.orig_step (a := .close i checkpoint) hsys
    exact .of_none hb' (horig ▸ hw) (hcommitted ▸ hs) (System.lookup_close hsys)
  | kill file =>
    obtain rfl := Option.some.inj ht
    obtain ⟨⟨pend, hb⟩, hw, c, hs, -⟩ := h
    obtain ⟨pend', hb'⟩ := hb.happens (e := .kill file) hok rfl
    exact .of_none hb' hw hs rfl
  | killCommit kept file =>
    obtain ⟨done, hdone, ht⟩ := Option.bind_eq_some_iff.1 ht
    obtain ⟨sys, hsys, rfl⟩ := Option.map_eq_some_iff.1 ht
    obtain ⟨⟨pend, hb⟩, hw, c, hs, hlive⟩ := h
    obtain ⟨hflags, hcrash⟩ := hok
    obtain ⟨pend', hb'⟩ := hb.happens (e := .killCommit i kept file) hcrash hsys
    obtain ⟨x, hx, -⟩ := System.commit_cases_of_tracks (fun x hx => ⟨[], hb.tracks x hx⟩) hdone
    obtain ⟨pend'', hb''⟩ := exists_backed_commit hb hcrash.1 hdone
    have horig : done.orig = d.sys.orig := System.orig_step (a := .commit i) hdone
    rw [System.happens, hdone, Option.map_some] at hsys
    obtain rfl := Option.some.inj hsys
    split at hb'
    · rename_i hcut
      simp only [if_pos hcut]
      exact .of_none hb' hw hs rfl
    · rename_i hcut
      simp only [if_neg hcut]
      have hs' : Shows lib done.committed d.catalog d.maps := ((hlive x hx).shows_commit hb hx hflags hb'' hdone).1
      exact .of_none (c := d.catalog) hb' (horig ▸ hw) hs' rfl
  | killReset a kept =>
    obtain ⟨sys, hsys, rfl⟩ := Option.map_eq_some_iff.1 ht
    obtain ⟨⟨pend, hb⟩, hw, c, hs, -⟩ := h
    obtain ⟨pend', hb'⟩ := hb.happens (e := .killReset a kept) hok hsys
    have horig := System.orig_happens hsys
    rw [System.happens] at hsys
    split at hsys
    swap
    · cases hsys
    rename_i hr
    obtain ⟨u, hu, rfl⟩ := Option.map_eq_some_iff.1 hsys
    have hcommitted : u.committed = d.sys.committed := hb.committed_of_resets hok hr hu
    have hs' : Shows lib (u.dead u.file (u.log.take kept)).committed c d.saved := by
      change Shows lib u.committed c d.saved
      exact hcommitted ▸ hs
    exact .of_none hb' (horig ▸ hw) hs' rfl

/-! ### Runs -/

/-- No session is open, and the pages show `maps`. -/
def start (file log : Bytes) (maps : TableMaps) : TableDb := ⟨System.init file log, ∅, .empty, none, false, false, maps, maps⟩

theorem inv_start {file log : Bytes} (hlog : log.length ≤ Wal.header.length) (hwhole : pageSize ∣ file.length)
    (h : Shows lib (readPage file) c maps) : Inv lib i (start file log maps) :=
  .of_none (System.Backed.init i file hlog) hwhole h rfl

/-- An open returns. -/
theorem Inv.exists_open (h : Inv lib i d) (hnone : d.sys.sess.lookup i = none) {cacheSize : Nat} (hc : 0 < cacheSize) :
    ∃ d' x, d.step lib i (.open cacheSize) = some d' ∧ d'.sys.sess.lookup i = some x ∧ x.inTxn = false ∧ d'.raised = false ∧
      d'.maps = d.saved ∧ d'.saved = d.saved := by
  obtain ⟨⟨pend, hb⟩, -, c, hs, -⟩ := h
  obtain ⟨sys, x, hsys, hx, hin⟩ := hb.exists_openFiles hnone hc
  obtain ⟨hb', hcommitted⟩ := hb.openFiles hsys
  obtain ⟨⟨im, p⟩, hg⟩ : ∃ r, (sys.pagerOf x).get 0 = .ok r := by
    rw [Pager.get, if_neg (by omega)]
    split <;> exact ⟨_, rfl⟩
  have hcat : Catalog.load lib im.bytes = .ok c.reloaded := by
    rw [(Pager.fetches_get (hb'.session x hx).wf hg).bytes_eq, hb'.content_eq hx hin, hcommitted, hs.catalog]
  refine ⟨⟨sys.store i x p, ∅, c.reloaded, none, false, false, d.saved, d.saved⟩, { x with mem := p.toPagerMem }, ?_,
    System.lookup_store_self .., hin, rfl, rfl, rfl⟩
  rw [TableDb.step, TableDb.open, hsys]
  simp only [hx, hg, hcat]

/-- The session has the tables of `maps` and no other. -/
def Reveals (d : TableDb) (x : Session) (maps : TableMaps) : Prop :=
  ∀ name : String, match maps name.toLower with
    | some m => ∃ e, d.catalog.get name = .ok e ∧ Refines (d.tree x) e.rootPage m
    | none => d.catalog.get name = .error .catalogError

theorem Live.reveals (h : Live lib d c x) (hr : d.raised = false) : d.Reveals x d.maps := by
  obtain ⟨hreads, tree, htrees⟩ := h.carries.tables hr
  intro name
  cases hget : d.catalog.get name with
  | ok e =>
    obtain ⟨m, hm, hrefines⟩ := htrees.refines hreads (Catalog.get_eq_ok.1 hget)
    rw [hm]
    exact ⟨e, rfl, hrefines⟩
  | error e =>
    have hnone : d.catalog.entry name.toLower = none := by
      refine Option.eq_none_iff_forall_ne_some.2 fun m hm => ?_
      cases hget.symm.trans (Catalog.get_eq_ok.2 hm)
    rw [htrees.absent _ hnone]
    rw [Catalog.get] at hget
    split at hget
    · cases hget
    · exact hget.symm

/-- In every run an open session has the tables of the reference maps as long as no call has raised, outside a transaction these
are the maps of the last commit that is whole in the log, and whoever opens the closed database finds those. -/
theorem shows_saved {file log : Bytes} (hlog : log.length ≤ Wal.header.length) (hwhole : pageSize ∣ file.length)
    (hstart : Shows lib (readPage file) c maps) {es : List Event}
    (hrun : Run (step lib i) (Ok lib i) (start file log maps) es d) :
    (∀ x, d.sys.sess.lookup i = some x →
      (x.inTxn = false → d.raised = false ∧ d.maps = d.saved) ∧ (d.raised = false → d.Reveals x d.maps)) ∧
    (d.sys.sess.lookup i = none → ∀ cacheSize, 0 < cacheSize → ∃ d' x, d.step lib i (.open cacheSize) = some d' ∧
      d'.sys.sess.lookup i = some x ∧ d'.Reveals x d.saved) := by
  have h : Inv lib i d := hrun.invariant (fun _ _ _ h hok ht => h.step hok ht) (inv_start hlog hwhole hstart)
  refine ⟨fun x hx => ?_, fun hnone cacheSize hc => ?_⟩
  · obtain ⟨c, -, hlive⟩ := h.shows
    have hl := hlive x hx
    refine ⟨fun hin => ?_, hl.reveals⟩
    obtain ⟨hflags, hmaps, -⟩ := hl.untouched (hl.idle hin)
    exact ⟨hflags.1, hmaps⟩
  · obtain ⟨d', x, ht, hx, -, hr, hmaps, -⟩ := h.exists_open hnone hc
    obtain ⟨c, -, hlive⟩ := (h.step (e := .open cacheSize) trivial ht).shows
    exact ⟨d', x, ht, hx, hmaps ▸ (hlive x hx).reveals hr⟩

end

/-! ### A table with one row -/

/-- The table has the column `id`, and its tree is on page 1. -/
def oneRowTable : TableMeta := ⟨"t", [⟨"id", .int, true⟩], 1, 1, 2, []⟩

def oneRow : Catalog := ⟨[("t", oneRowTable)], [], List.nodup_singleton _⟩

/-- What `json.dumps` makes of it. -/
def oneRowText : Bytes :=
  [123, 34, 116, 97, 98, 108, 101, 115, 34, 58, 32, 123, 34, 116, 34, 58, 32, 123, 34, 110, 97, 109, 101, 34, 58,
    32, 34, 116, 34, 44, 32, 34, 99, 111, 108, 117, 109, 110, 115, 34, 58, 32, 91, 123, 34, 110, 97, 109, 101, 34,
    58, 32, 34, 105, 100, 34, 44, 32, 34, 116, 121, 112, 101, 34, 58, 32, 34, 73, 78, 84, 34, 44, 32, 34, 112,
    107, 34, 58, 32, 116, 114, 117, 101, 125, 93, 44, 32, 34, 114, 111, 111, 116, 95, 112, 97, 103, 101, 34, 58,
    32, 49, 44, 32, 34, 114, 111, 119, 95, 99, 111, 117, 110, 116, 34, 58, 32, 49, 44, 32, 34, 110, 101, 120, 116,
    95, 114, 111, 119, 105, 100, 34, 58, 32, 50, 44, 32, 34, 105, 110, 100, 101, 120, 101, 115, 34, 58, 32, 123,
    125, 125, 125, 44, 32, 34, 102, 114, 101, 101, 95, 112, 97, 103, 101, 115, 34, 58, 32, 91, 93, 125]

def oneRowLib : JsonLib where
  dumps _ := oneRowText
  loads text := if text = oneRowText then .ok oneRow.json else .error .valueError

/-- The page of its row. -/
def oneRowLeaf : Bytes := padTo pageSize (Node.leaf [(1, [7])] none : PyNode).encode

def oneRowFile : Bytes := writePage (writePage (List.replicate (2 * pageSize) 0) 1 oneRowLeaf) 0 (padTo pageSize oneRowText)

/-- The tree on that page. -/
def oneRowTree : Tree := ⟨0, PT.leaf 1 [(1, [7])] noPage⟩

def oneRowMaps : TableMaps := Function.update (fun _ => none) "t" (some (Function.update (fun _ => none) 1 (some [7])))

theorem length_oneRowLeaf : oneRowLeaf.length = pageSize := length_padTo (by decide)

set_option maxRecDepth 2000 in
theorem length_oneRowText : oneRowText.length = 170 := rfl

set_option maxRecDepth 2000 in
theorem getLast_oneRowText : oneRowText.getLast? = some 125 := rfl

theorem length_oneRowPage : (padTo pageSize oneRowText).length = pageSize :=
  length_padTo (by rw [length_oneRowText, pageSize]; omega)

theorem entry_oneRow {key : String} {e : TableMeta} : oneRow.reloaded.entry key = some e ↔ key = "t" ∧ e = oneRowTable := by
  rw [Catalog.entry_eq_some]
  simp [Catalog.reloaded, oneRow]

theorem sound_oneRow {C : Nat → Bytes} (h : C 1 = oneRowLeaf) : SoundTree (pagesOf C 2) 1 oneRowTree := by
  have hleaf : (pagesOf C 2).nodes 1 = .ok (.leaf [(1, [7])] (TreeLink.ofCode noPage)) := by
    change nodeFromBytes (C 1) = _
    rw [h]
    exact nodeFromBytes_toBytes (if_pos (by decide))
  exact PyTree.sound_single (isI64_of_small (by omega)) (by decide) hleaf ⟨Nat.one_pos, Nat.one_lt_two⟩ rfl

theorem tables_oneRow {C : Nat → Bytes} (h : C 1 = oneRowLeaf) :
    TableTrees (pagesOf C 2) oneRow.reloaded oneRowMaps fun _ => oneRowTree := by
  have hroot : ∀ {key r}, oneRow.reloaded.roots key = some r → key = "t" ∧ r = 1 := by
    intro key r hr
    obtain ⟨e, he, rfl⟩ := Option.map_eq_some_iff.1 hr
    obtain ⟨rfl, rfl⟩ := entry_oneRow.1 he
    exact ⟨rfl, rfl⟩
  have hkey : ∀ {key}, (oneRow.reloaded.roots key).isSome → key = "t" := by
    intro key hk
    obtain ⟨r, hr⟩ := Option.isSome_iff_exists.1 hk
    exact (hroot hr).1
  refine ⟨⟨fun key r hr => ?_, fun a b ha hb hne => ?_, fun _ _ _ _ => List.not_mem_nil, List.nodup_nil,
    fun p hp => (by cases hp), rfl, Nat.two_pos⟩, fun key e he => ?_, fun key hn => ?_, fun key e he => ?_⟩
  · obtain ⟨-, rfl⟩ := hroot hr
    exact ⟨rfl, (sound_oneRow h).tree⟩
  · exact absurd ((hkey ha).trans (hkey hb).symm) hne
  · obtain ⟨rfl, rfl⟩ := entry_oneRow.1 he
    refine ⟨sound_oneRow h, by simp [Tree.Linkable, oneRowTree], _, Function.update_self .., fun k v => ?_⟩
    rw [Function.update_apply]
    by_cases hk : k = 1 <;> simp [Tree.cells, oneRowTree, hk, eq_comm]
  · refine Function.update_of_ne (fun hk => ?_) ..
    cases hn.symm.trans (entry_oneRow.2 ⟨hk, rfl⟩)
  · obtain ⟨rfl, rfl⟩ := entry_oneRow.1 he
    rfl

theorem readPage_oneRowFile : readPage oneRowFile 0 = padTo pageSize oneRowText ∧ readPage oneRowFile 1 = oneRowLeaf := by
  constructor <;> rw [oneRowFile, readPage_writePage length_oneRowPage, readPage_writePage length_oneRowLeaf] <;> rfl

theorem reloads_oneRow : oneRow.Reloads oneRowLib := by
  refine ⟨?_, getLast_oneRowText⟩
  simp only [oneRowLib, if_true]

theorem save_oneRow : oneRow.save oneRowLib = .ok (padTo pageSize oneRowText) := by
  have hlen : ¬pageSize - 8 < (oneRowLib.dumps oneRow.json).length := by
    rw [show (oneRowLib.dumps oneRow.json).length = 170 from length_oneRowText, pageSize]
    omega
  rw [Catalog.save]
  exact if_neg hlen

theorem shows_oneRow : Shows oneRowLib (readPage oneRowFile) oneRow oneRowMaps := by
  obtain ⟨hpage₀, hpage₁⟩ := readPage_oneRowFile
  refine ⟨?_, 2, _, tables_oneRow hpage₁⟩
  rw [hpage₀, Catalog.load_save save_oneRow reloads_oneRow.1 reloads_oneRow.2 (by decide)]
  rfl

theorem length_oneRowFile : oneRowFile.length = 2 * pageSize := by
  rw [oneRowFile, Pager.length_writePage _ _ length_oneRowPage, Pager.length_writePage _ _ length_oneRowLeaf,
    List.length_replicate]
  rfl

theorem dvd_length_oneRowFile : pageSize ∣ oneRowFile.length := by
  rw [length_oneRowFile]
  exact Nat.dvd_mul_left ..

section Row

variable {d d' : TableDb} {x y : Session} {v w : Bytes}

theorem get_oneRow : oneRow.get "t" = .ok oneRowTable := by
  have hlower : "t".toLower = "t" := by decide +kernel
  rw [Catalog.get_eq_ok, hlower]
  exact entry_oneRow.2 ⟨rfl, rfl⟩

/-- The map of a table with one row. -/
def rowMaps (v : Bytes) : TableMaps := Function.update (fun _ => none) "t" (some (Function.update (fun _ => none) 1 (some v)))

/-- A session of a database with this row. -/
structure HasRow (v : Bytes) (d : TableDb) (x : Session) : Prop where
  inv : Inv oneRowLib 0 d
  session : d.sys.sess.lookup 0 = some x
  catalog : d.catalog = oneRow
  raised : d.raised = false
  maps : d.maps = rowMaps v
  node : (d.tree x).store.nodes 1 = .ok (.leaf [(1, v)] none)
  numPages : x.mem.numPages = 2
  orig : d.sys.orig = oneRowFile

namespace HasRow

theorem holds (h : HasRow v d x) (hv : v.length ≤ 2048) : Holds (d.tree x) 1 ⟨0, PT.leaf 1 [(1, v)] noPage⟩ := by
  obtain ⟨c, -, hlive⟩ := h.inv.shows
  obtain ⟨hreads, -⟩ := (hlive x h.session).carries.tables h.raised
  refine ⟨hreads, ?_⟩
  have hnum : (d.tree x).store.numPages = 2 := h.numPages
  exact PyTree.sound_single (isI64_of_small (by omega)) hv h.node ⟨Nat.one_pos, by rw [hnum]; decide⟩ rfl

/-- The statement `UPDATE`. -/
theorem call (h : HasRow v d x) (hv : v.length ≤ 2048) (hw : w.length ≤ 2048) (hin : x.inTxn = true)
    (hnone : ∀ n, x.mem.shadow.lookup n = none) : ∃ d' x' im', d.step oneRowLib 0 (.call "t" (.upsert 1 w) 1 2) = some d' ∧
      Ok oneRowLib 0 d (.call "t" (.upsert 1 w) 1 2) ∧ HasRow w d' x' ∧ x'.inTxn = true ∧ d'.sys.log = d.sys.log ∧
      d'.saved = d.saved ∧ (d'.tree x').pager.cached 1 = some im' ∧
      ∀ n im, x'.mem.shadow.lookup n = some (some im) → n = 1 ∧ im.id ≠ im'.id := by
  have hlower : "t".toLower = "t" := by decide +kernel
  have hget : d.ensureSnapshot.catalog.get "t" = .ok oneRowTable := by
    change d.catalog.get "t" = _
    rw [h.catalog, get_oneRow]
  obtain ⟨⟨pend, hb⟩, -⟩ := id h.inv
  have hholds := h.holds hv
  obtain ⟨t, im', hcall, hnum, hholds', hcached, hshadow⟩ := hholds.upsert_single (w := w) (isI64_of_small (by omega)) hw
    (hb.touched_isSome h.session hin) hnone
  have hok : Ok oneRowLib 0 d (.call "t" (.upsert 1 w) 1 2) := fun _ => by
    refine ⟨⟨isI64_of_small (by omega), hw.trans (by decide)⟩, fun y m hy hm => ?_⟩
    obtain rfl := Option.some.inj (h.session.symm.trans hy)
    rw [h.catalog, get_oneRow] at hm
    obtain rfl := Except.ok.inj hm
    rintro ⟨hlast, -⟩
    exact absurd (h.numPages.symm.trans hlast) (by decide)
  have hstep : d.step oneRowLib 0 (.call "t" (.upsert 1 w) 1 2) = some
      { d.ensureSnapshot.put 0 x t with
        unsaved := true
        maps := Function.update d.maps "t".toLower ((d.maps "t".toLower).map (Call.upsert 1 w).apply)
        catalog := d.catalog.setTable "t".toLower { oneRowTable with rootPage := 1, rowCount := 1, nextRowid := 2 } } := by
    rw [TableDb.step, TableDb.statement, h.session]
    simp only [hin, if_true]
    rw [TableDb.call, hget]
    have hcall' : (d.ensureSnapshot.tree x).call oneRowTable.rootPage (.upsert 1 w) = some (.done, t, 1) := hcall
    simp only [hcall']
    rfl
  refine ⟨_, { x with mem := t.pager.toPagerMem }, im', hstep, hok, ⟨h.inv.step hok hstep, System.lookup_store_self .., ?_, h.raised, ?_, ?_,
    hnum.trans h.numPages, h.orig⟩, hin, rfl, rfl, hcached, hshadow⟩
  · change Catalog.setTable d.catalog "t".toLower oneRowTable = oneRow
    rw [h.catalog, hlower]
    rfl
  · change Function.update d.maps "t".toLower ((d.maps "t".toLower).map (Call.upsert 1 w).apply) = _
    rw [h.maps, hlower]
    simp [rowMaps, Call.apply]
  · exact hholds'.sound.tree.on _ (PT.node_mem _)

theorem begin (h : HasRow v d x) (hin : x.inTxn = false) : ∃ d' x', d.step oneRowLib 0 .begin = some d' ∧
    HasRow v d' x' ∧ x'.inTxn = true ∧ d'.sys.log = d.sys.log ∧ d'.saved = d.saved ∧
    ∀ n, x'.mem.shadow.lookup n = none := by
  obtain ⟨⟨pend, hb⟩, -⟩ := id h.inv
  have hbegin := System.step_begin h.session hin (hb.touched_eq_none h.session hin)
  have hstep : d.step oneRowLib 0 .begin = some _ := congrArg (Option.map _) hbegin
  exact ⟨_, _, hstep, ⟨h.inv.step (e := .begin) trivial hstep, System.lookup_store_self .., h.catalog, h.raised, h.maps,
    h.node, h.numPages, h.orig⟩, rfl, rfl, rfl, fun _ => rfl⟩

theorem save (h : HasRow v d x) (hin : x.inTxn = true) : ∃ d' x', d.step oneRowLib 0 .save = some d' ∧
    Ok oneRowLib 0 d .save ∧ HasRow v d' x' ∧ x'.inTxn = true ∧ d'.unsaved = false ∧ d'.sys.log = d.sys.log ∧
    d'.saved = d.saved := by
  obtain ⟨⟨pend, hb⟩, -⟩ := id h.inv
  have hp := hb.session x h.session
  have hok : Ok oneRowLib 0 d .save := by
    change d.catalog.Reloads oneRowLib
    rw [h.catalog]
    exact reloads_oneRow
  obtain ⟨p, hw⟩ : ∃ p, (d.sys.pagerOf x).write 0 (padTo pageSize oneRowText) = .ok p := by
    rw [Pager.write, if_neg (by rw [length_oneRowPage]; exact lt_irrefl _)]
    exact ⟨_, rfl⟩
  have hstep : d.step oneRowLib 0 .save = some { d.ensureSnapshot.put 0 x ⟨p, d.ncache⟩ with unsaved := false } := by
    rw [TableDb.step, TableDb.statement, h.session]
    simp only [hin, if_true]
    have hsave : d.ensureSnapshot.catalog.save oneRowLib = .ok (padTo pageSize oneRowText) := by
      change d.catalog.save oneRowLib = _
      rw [h.catalog, save_oneRow]
    have hw' : (d.ensureSnapshot.sys.pagerOf x).write 0 (padTo pageSize oneRowText) = .ok p := hw
    rw [TableDb.save, hsave]
    simp only [hw']
    rfl
  obtain ⟨hst, -⟩ := hp.wf.live.write hw
  refine ⟨_, { x with mem := p.toPagerMem }, hstep, hok, ⟨h.inv.step hok hstep, System.lookup_store_self .., h.catalog, h.raised,
    h.maps, ?_, ?_, h.orig⟩, hin, rfl, rfl, rfl⟩
  · have hclean : ((d.sys.pagerOf x).newImage (padTo pageSize (padTo pageSize oneRowText))).2.Clean := hp.clean
    exact (congrArg nodeFromBytes (hst.content_other hclean Nat.one_ne_zero)).trans h.node
  · change p.numPages = 2
    rw [hst.numPages_eq]
    change max x.mem.numPages 1 = 2
    rw [h.numPages]
    rfl

theorem commit (h : HasRow v d x) (hin : x.inTxn = true) (hlog : d.sys.log = Wal.header) (hu : d.unsaved = false) :
    ∃ d' x', d.step oneRowLib 0 .commit = some d' ∧ Ok oneRowLib 0 d .commit ∧ HasRow v d' x' ∧ x'.inTxn = false ∧
      d'.saved = rowMaps v := by
  obtain ⟨⟨pend, hb⟩, -⟩ := id h.inv
  obtain ⟨sys, hsys⟩ := hb.exists_commit h.session hin (by rw [h.numPages]; decide)
  have hok : Ok oneRowLib 0 d .commit := ⟨⟨h.raised, hu⟩, rfl, fun _ _ => .inr ⟨[], by rw [hlog]; rfl⟩⟩
  have hstep : d.step oneRowLib 0 .commit = some { d with sys := sys, snapshot := none, saved := d.maps } :=
    congrArg (Option.map _) hsys
  obtain ⟨y, hy, hout, hpager⟩ := hb.lookup_commit h.session hsys
  have hnum : y.mem.numPages = 2 := (congrArg (fun p : Pager => p.numPages) hpager).trans h.numPages
  refine ⟨_, y, hstep, hok, ⟨h.inv.step hok hstep, hy, h.catalog, h.raised, h.maps, ?_, hnum,
    (System.orig_step (a := .commit 0) hsys : sys.orig = _).trans h.orig⟩, hout, h.maps⟩
  change nodeFromBytes ((sys.pagerOf y).content 1) = _
  rw [hpager]
  exact h.node

theorem checkpoint (h : HasRow v d x) (hin : x.inTxn = false) : ∃ d' x', d.step oneRowLib 0 .checkpoint = some d' ∧
    HasRow v d' x' ∧ x'.inTxn = false ∧ d'.sys.log = Wal.header ∧ d'.saved = d.saved := by
  obtain ⟨⟨pend, hb⟩, -⟩ := id h.inv
  obtain ⟨sys, hsys⟩ := hb.exists_checkpoint h.session hin
  have hstep : d.step oneRowLib 0 .checkpoint = some { d with sys := sys } := congrArg (Option.map _) hsys
  obtain ⟨z, p, hz, -, -, hf, rfl⟩ := System.checkpoint_cases hsys
  obtain rfl := Option.some.inj (h.session.symm.trans hz)
  have hwf := (hb.session x h.session).wf
  obtain ⟨-, -, hnum, -⟩ := Pager.flush_fields hwf hf
  refine ⟨_, _, hstep, ⟨h.inv.step (e := .checkpoint) trivial hstep, System.lookup_store_self .., h.catalog, h.raised, h.maps, ?_,
    hnum.trans h.numPages, h.orig⟩, hin, rfl, rfl⟩
  exact (congrArg nodeFromBytes (Pager.content_flush hwf (hb.session x h.session).clean hf 1)).trans h.node

/-- The page that was overwritten is loaded again. -/
theorem load (h : HasRow v d x) (hv : v.length ≤ 2048) {im : Image} (hc : (d.tree x).pager.cached 1 = some im) :
    ∃ d' x' im' nd, d.step oneRowLib 0 (.load 1) = some d' ∧ HasRow v d' x' ∧ x'.inTxn = x.inTxn ∧ d'.sys.log = d.sys.log ∧
      d'.saved = d.saved ∧ x'.mem.shadow = x.mem.shadow ∧ d'.ncache.lookup 1 = some (im', nd) ∧ im'.id = im.id := by
  obtain ⟨t, hload, hh, hstore, hshadow, -⟩ := (h.holds hv).load_single
  have hstep : d.step oneRowLib 0 (.load 1) = some (d.put 0 x t) := by
    rw [TableDb.step, TableDb.load, h.session]
    simp only [hload]
  obtain ⟨im₁, im', -, hn, hid, hsame⟩ := PyTree.lookup_load (h.holds hv).reads.live hload
  obtain rfl := hsame im hc
  have hnum : t.pager.numPages = 2 := (congrArg Store.numPages hstore).trans h.numPages
  exact ⟨_, { x with mem := t.pager.toPagerMem }, im', _, hstep, ⟨h.inv.step (e := .load 1) trivial hstep,
    System.lookup_store_self .., h.catalog, h.raised, h.maps, hh.sound.tree.on _ (PT.node_mem _), hnum, h.orig⟩, rfl, rfl, rfl,
    hshadow, hn, hid⟩

/-- The transaction wrote page 1 only, and loaded it again. -/
theorem rollback (h : HasRow v d x) (hv : v.length ≤ 2048) (hin : x.inTxn = true) (hlog : d.sys.log = Wal.header)
    {im im' : Image} {nd : PyNode} (hn : d.ncache.lookup 1 = some (im', nd)) (hid : im'.id = im.id)
    (hshadow : ∀ n A, x.mem.shadow.lookup n = some (some A) → n = 1 ∧ A.id ≠ im.id) :
    ∃ d' x', d.step oneRowLib 0 .rollback = some d' ∧ Ok oneRowLib 0 d .rollback ∧ d'.sys.sess.lookup 0 = some x' ∧
      x'.inTxn = false ∧ d'.saved = d.saved := by
  obtain ⟨⟨pend, hb⟩, -⟩ := id h.inv
  obtain rfl := hb.pending.unique (Wal.pending_short (by rw [hlog]))
  have hp := hb.session x h.session
  have hundo : (d.sys.pagerOf x).UndoOnFile := by
    intro n A hA
    obtain ⟨rfl, -⟩ := hshadow n A hA
    have hbase : (d.sys.pagerOf x).base 1 = A.bytes := by rw [Pager.base, hA]
    refine ⟨(hp.file.read 1 (by simp [Batch.logged])).trans ((hp.base 1).symm.trans hbase), ?_⟩
    refine (hp.file.stored 1 (.inr ?_)).resolve_left (by simp [Batch.logged])
    rw [h.orig, length_oneRowFile]
  have hok : Ok oneRowLib 0 d .rollback := by
    refine ⟨⟨rfl, fun y hy => ?_⟩, fun y hy => ?_⟩ <;> obtain rfl := Option.some.inj (h.session.symm.trans hy)
    · exact hundo
    · refine .of_shadow (h.holds hv).reads fun n A hA im₁ nd₁ h₁ => ?_
      obtain ⟨rfl, hne⟩ := hshadow n A hA
      cases hn.symm.trans h₁
      rw [hid]
      exact hne.symm
  have hstep : d.step oneRowLib 0 .rollback = some _ := congrArg (Option.map _) (System.step_rollback h.session hin)
  exact ⟨_, _, hstep, hok, System.lookup_store_self .., rfl, rfl⟩

end HasRow

theorem exists_open_oneRow : ∃ d x, (start oneRowFile [] oneRowMaps).step oneRowLib 0 (.open 64) = some d ∧ HasRow [7] d x ∧ x.inTxn = false ∧
    d.sys.log = Wal.header := by
  have hstart : Inv oneRowLib 0 (start oneRowFile [] oneRowMaps) := inv_start (Nat.zero_le _) dvd_length_oneRowFile shows_oneRow
  have hpage := readPage_oneRowFile.2
  have hload : Catalog.load oneRowLib (readPage oneRowFile 0) = .ok oneRow := shows_oneRow.catalog
  have hlen := length_oneRowFile
  obtain ⟨sys, y, hopen, hy, hin, hlog, horig, p, hg, hfile, hcached, hnum⟩ : ∃ sys y,
      (start oneRowFile [] oneRowMaps).sys.openFiles 0 64 = some sys ∧ sys.sess.lookup 0 = some y ∧ y.inTxn = false ∧
      sys.log = Wal.header ∧ sys.orig = oneRowFile ∧ ∃ p, (sys.pagerOf y).get 0 = .ok (⟨1, readPage oneRowFile 0⟩, p) ∧ p.file = oneRowFile ∧
      p.cached 1 = none ∧ p.numPages = max 1 (oneRowFile.length / pageSize) := by
    generalize oneRowFile = file
    refine ⟨_, _, rfl, rfl, rfl, rfl, rfl, ?_⟩
    rw [Pager.get, if_neg fun h => h.2 rfl]
    exact ⟨_, rfl, rfl, rfl, rfl⟩
  have hstep : (start oneRowFile [] oneRowMaps).step oneRowLib 0 (.open 64) =
      some ⟨sys.store 0 y p, ∅, oneRow, none, false, false, oneRowMaps, oneRowMaps⟩ := by
    rw [TableDb.step, TableDb.open, hopen]
    simp only [hy, hg, hload]
    rfl
  refine ⟨_, { y with mem := p.toPagerMem }, hstep, ⟨hstart.step (e := .open 64) trivial hstep, System.lookup_store_self ..,
    rfl, rfl, rfl, ?_, ?_, horig⟩, hin, hlog⟩
  · change nodeFromBytes (p.content 1) = _
    rw [Pager.content_of_not_cached hcached, hfile, hpage]
    exact nodeFromBytes_toBytes (if_pos (by decide))
  · change p.numPages = 2
    rw [hnum, hlen]
    rfl

/-- The process dies in a transaction that has dropped the table. -/
theorem exists_lost_oneRow (h : Inv oneRowLib 0 d) (hx : d.sys.sess.lookup 0 = some x) (hin : x.inTxn = false) :
    ∃ file d', Run (step oneRowLib 0) (Ok oneRowLib 0) d [.begin, .drop "t", .kill file] d' ∧ d'.sys.sess.lookup 0 = none ∧
      d'.saved = d.saved := by
  obtain ⟨⟨pend, hb⟩, -, -⟩ := id h
  obtain ⟨d₁, y, ht₁, hy, hin₁, hsaved₁⟩ : ∃ d₁ y, d.step oneRowLib 0 .begin = some d₁ ∧ d₁.sys.sess.lookup 0 = some y ∧
      y.inTxn = true ∧ d₁.saved = d.saved :=
    ⟨_, _, congrArg (Option.map _) (System.step_begin hx hin (hb.touched_eq_none hx hin)), System.lookup_store_self .., rfl, rfl⟩
  obtain ⟨d₂, ht₂, hsaved₂⟩ : ∃ d₂, d₁.step oneRowLib 0 (.drop "t") = some d₂ ∧ d₂.saved = d₁.saved := by
    rw [TableDb.step, TableDb.statement, hy]
    simp only [hin₁, if_true]
    rw [TableDb.drop]
    split
    · exact ⟨_, rfl, rfl⟩
    · split <;> exact ⟨_, rfl, rfl⟩
  have hkill : Ok oneRowLib 0 d₂ (.kill d₂.sys.file) := fun _ _ _ _ => ⟨rfl, id⟩
  exact ⟨_, _, .cons trivial ht₁ (.cons trivial ht₂ (.single hkill rfl)), rfl, hsaved₂.trans hsaved₁⟩

/-- An update is committed; another one is rolled back after its page was loaded again, and a third transaction drops the
table and is open when the process dies. -/
theorem shows_saved_oneRow : ∃ d x file d₁ d₂ y, Run (step oneRowLib 0) (Ok oneRowLib 0) (start oneRowFile [] oneRowMaps)
      [.open 64, .begin, .call "t" (.upsert 1 [8]) 1 2, .save, .commit, .checkpoint, .begin, .call "t" (.upsert 1 [9]) 1 2, .load 1,
        .rollback] d ∧ d.sys.sess.lookup 0 = some x ∧ d.Reveals x (rowMaps [8]) ∧
    Run (step oneRowLib 0) (Ok oneRowLib 0) d [.begin, .drop "t", .kill file] d₁ ∧ d₁.step oneRowLib 0 (.open 1) = some d₂ ∧
      d₂.sys.sess.lookup 0 = some y ∧ d₂.Reveals y (rowMaps [8]) := by
  obtain ⟨d₁, x₁, ht₁, h₁, hin₁, hlog₁⟩ := exists_open_oneRow
  obtain ⟨d₂, x₂, ht₂, h₂, hin₂, hlog₂, -, hnone₂⟩ := h₁.begin hin₁
  obtain ⟨d₃, x₃, _, ht₃, hok₃, h₃, hin₃, hlog₃, -⟩ := h₂.call (w := [8]) (by decide) (by decide) hin₂ hnone₂
  obtain ⟨d₄, x₄, ht₄, hok₄, h₄, hin₄, hu₄, hlog₄, -⟩ := h₃.save hin₃
  obtain ⟨d₅, x₅, ht₅, hok₅, h₅, hin₅, hsaved₅⟩ := h₄.commit hin₄ (hlog₄.trans (hlog₃.trans (hlog₂.trans hlog₁))) hu₄
  obtain ⟨d₆, x₆, ht₆, h₆, hin₆, hlog₆, hsaved₆⟩ := h₅.checkpoint hin₅
  obtain ⟨d₇, x₇, ht₇, h₇, hin₇, hlog₇, hsaved₇, hnone₇⟩ := h₆.begin hin₆
  obtain ⟨d₈, x₈, im, ht₈, hok₈, h₈, hin₈, hlog₈, hsaved₈, hc₈, hshadow₈⟩ := h₇.call (w := [9]) (by decide) (by decide) hin₇ hnone₇
  obtain ⟨d₉, x₉, im', nd, ht₉, h₉, hin₉, hlog₉, hsaved₉, hshadow₉, hn₉, hid₉⟩ := h₈.load (by decide) hc₈
  obtain ⟨d', x', ht, hok, hx, hin, hsaved⟩ := h₉.rollback (by decide) (hin₉.trans hin₈) (hlog₉.trans (hlog₈.trans (hlog₇.trans hlog₆)))
    hn₉ hid₉ fun n A hA => hshadow₈ n A (hshadow₉ ▸ hA)
  have hrun : Run (step oneRowLib 0) (Ok oneRowLib 0) (start oneRowFile [] oneRowMaps)
      [.open 64, .begin, .call "t" (.upsert 1 [8]) 1 2, .save, .commit, .checkpoint, .begin, .call "t" (.upsert 1 [9]) 1 2, .load 1,
        .rollback] d' :=
    .cons trivial ht₁ (.cons trivial ht₂ (.cons hok₃ ht₃ (.cons hok₄ ht₄ (.cons hok₅ ht₅ (.cons trivial ht₆ (.cons trivial ht₇
      (.cons hok₈ ht₈ (.cons trivial ht₉ (.single hok ht)))))))))
  have hmaps : d'.saved = rowMaps [8] := hsaved.trans (hsaved₉.trans (hsaved₈.trans (hsaved₇.trans (hsaved₆.trans hsaved₅))))
  obtain ⟨hout, hreveals⟩ := (shows_saved (Nat.zero_le _) dvd_length_oneRowFile shows_oneRow hrun).1 x' hx
  obtain ⟨hraised, hsame⟩ := hout hin
  have hinv : Inv oneRowLib 0 d' :=
    hrun.invariant (fun _ _ _ h hok ht => h.step hok ht) (inv_start (Nat.zero_le _) dvd_length_oneRowFile shows_oneRow)
  obtain ⟨file, e, hlost, hnone, hsaved'⟩ := exists_lost_oneRow hinv hx hin
  obtain ⟨e', y, hopen, hy, hreveals'⟩ :=
    (shows_saved (Nat.zero_le _) dvd_length_oneRowFile shows_oneRow (hrun.append hlost)).2 hnone 1 Nat.one_pos
  exact ⟨d', x', file, e, e', y, hrun, hx, hmaps ▸ hsame ▸ hreveals hraised, hlost, hopen, hy, hmaps ▸ hsaved' ▸ hreveals'⟩

end Row

end TableDb

end LeafDb
