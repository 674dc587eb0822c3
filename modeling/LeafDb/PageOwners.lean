import LeafDb.Base.Run
import LeafDb.TreeRun
import LeafDb.TreeVacuum

/-!
# Who owns a page (`engine.py`, `freelist.py`)

A page is in the tree of a table, in the free list of the catalog, or in neither: merges and `vacuum` leave
pages behind that nobody collects. `PageDb.Sound` names the tree of each table; every statement that
completes keeps it, so no page has two owners in any state of a run.
-/

namespace LeafDb

namespace BTree

variable {ν : Type} [TreeLink ν]

/-- `collect_tree_pages`: the pages visited and the stack, its top first. -/
def collectTreePages : Nat → List Nat → List Nat → TreeM ν (List Nat)
  | 0, _, _ => .fail .diverges
  | _ + 1, visited, [] => return visited
  | fuel + 1, visited, pg :: stack =>
    if pg ∈ visited then collectTreePages fuel visited stack
    else do
      match ← loadNode pg with
      | .leaf _ _ => collectTreePages fuel (pg :: visited) stack
      | .internal _ children => collectTreePages fuel (pg :: visited) (children.reverse ++ stack)

/-- The root of a new table: the last free page, or a new page. -/
def newRoot (freePages : List Nat) : TreeM ν Nat := do
  let root ← match freePages.getLast? with
    | some p => pure p
    | none => allocatePage
  writeNode root (newLeaf [])
  return root

/-- The loop over the rows: each call returns the root that the next one starts from. -/
def eachRow {α : Type} (call : Nat → Nat → α → EStateM Failure (Store ν) Nat) :
    Nat → List α → EStateM Failure (Store ν) Nat
  | root, [] => pure root
  | root, row :: rows => fun s =>
    match call s.numPages root row s with
    | .ok root' s' => eachRow call root' rows s'
    | .error e s' => .error e s'

end BTree

/-! ### Statements -/

/-- The statements that change pages; a row is its rowid and the encoded record. -/
inductive Statement
  | createTable (name : String)
  | dropTable (name : String)
  | insert (table : String) (rows : List (Int × Bytes))
  | update (table : String) (rows : List (Int × Bytes))
  | delete (table : String) (rids : List Int)
  | bulkInsert (table : String) (rows : List (Int × Bytes))
  | vacuum (table : String)

/-- The pages of a database, the roots of its tables and `catalog.free_pages`. -/
structure PageDb (ν : Type) where
  store : Store ν
  tables : String → Option Nat
  freePages : List Nat

section Exec

variable {ν : Type} [TreeLink ν]

/-- `catalog.save`: page 0 is written, and `img` is what it decodes to. -/
def Store.saveCatalog (s : Store ν) (img : Except PyError (Node ν)) : Store ν :=
  { nodes := Function.update s.nodes 0 img
    numPages := max s.numPages 1
    stale := s.stale.filter (· ≠ 0) }

namespace PageDb

/-- A new file. -/
def fresh (nodes : Nat → Except PyError (Node ν)) : PageDb ν := ⟨⟨nodes, 1, []⟩, fun _ => none, []⟩

def createTable (d : PageDb ν) (name : String) (img : Except PyError (Node ν)) : Option (PageDb ν) :=
  match (BTree.newRoot d.freePages).run d.store with
  | .error _ _ => none
  | .ok root s =>
    -- `catalog.add`
    if (d.tables name).isSome then none
    else some ⟨s.saveCatalog img, Function.update d.tables name (some root), d.freePages.dropLast⟩

def dropTable (d : PageDb ν) (name : String) (img : Except PyError (Node ν)) : Option (PageDb ν) :=
  match d.tables name with
  | none => none
  | some root =>
    match (BTree.collectTreePages (d.store.numPages + 1) [] [root]).run d.store with
    | .error _ _ => none
    | .ok pages s => some ⟨s.saveCatalog img, Function.update d.tables name none,
        d.freePages ++ (pages.insert root).insertionSort (· ≥ ·)⟩

/-- A statement that changes the tree of one table: `change` returns the new root. -/
def onTable (d : PageDb ν) (name : String) (img : Except PyError (Node ν))
    (change : Nat → EStateM Failure (Store ν) Nat) : Option (PageDb ν) :=
  match d.tables name with
  | none => none
  | some root =>
    match change root d.store with
    | .error _ _ => none
    | .ok root' s => some ⟨s.saveCatalog img, Function.update d.tables name (some root'), d.freePages⟩

/-- `executor_insert_bulk`, and the loop of `_insert`. -/
def insertRows (rows : List (Int × Bytes)) (root : Nat) : EStateM Failure (Store ν) Nat :=
  BTree.eachRow (fun fuel root row => (BTree.insert fuel root row.1 row.2).run) root rows

/-- The loop of `_update`. -/
def updateRows (rows : List (Int × Bytes)) (root : Nat) : EStateM Failure (Store ν) Nat :=
  BTree.eachRow (fun fuel root row => BTree.upsert fuel root row.1 row.2) root rows

/-- The loop of `_delete`. -/
def deleteRows (rids : List Int) (root : Nat) : EStateM Failure (Store ν) Nat :=
  BTree.eachRow (fun fuel root rid => (do return (← BTree.delete fuel root rid).1 : TreeM ν Nat).run) root rids

/-- `vacuum` of a table. -/
def vacuumTable (root : Nat) : EStateM Failure (Store ν) Nat := fun s =>
  (do return (← BTree.vacuum s.numPages root).1 : TreeM ν Nat).run s

/-- A statement with what page 0 decodes to after it, `none` when it does not complete. The reads of a
statement are left out: they choose the rows and write nothing. The fuel is the number of pages, which no
walk down a tree and no leaf chain exceeds (`Abort`). -/
def exec (d : PageDb ν) : Statement × Except PyError (Node ν) → Option (PageDb ν)
  | (.createTable name, img) => d.createTable name img
  | (.dropTable name, img) => d.dropTable name img
  | (.insert table rows, img) => d.onTable table img (insertRows rows)
  | (.update table rows, img) => d.onTable table img (updateRows rows)
  | (.delete table rids, img) => d.onTable table img (deleteRows rids)
  | (.bulkInsert table rows, img) => d.onTable table img (insertRows rows)
  | (.vacuum table, img) => d.onTable table img vacuumTable

end PageDb

/-- The pages of the tree with this root. -/
inductive Reaches (s : Store ν) (root : Nat) : Nat → Prop
  | root : Reaches s root root
  | child {p c : Nat} {keys : List Int} {children : List Nat} (hp : Reaches s root p)
      (hn : s.nodes p = .ok (.internal keys children)) (hc : c ∈ children) : Reaches s root c

/-- No page has two owners. -/
structure PageDb.OneOwner (d : PageDb ν) : Prop where
  trees : ∀ a b ra rb, d.tables a = some ra → d.tables b = some rb → a ≠ b →
    ∀ p, Reaches d.store ra p → ¬Reaches d.store rb p
  tree : ∀ a r, d.tables a = some r → ∀ p, Reaches d.store r p → p ≠ 0 ∧ p ∉ d.freePages ∧ p < d.store.numPages
  nodup : d.freePages.Nodup
  free : ∀ p ∈ d.freePages, p ≠ 0 ∧ p < d.store.numPages

/-! ### The pages of a tree -/

variable {h : Nat} {s s' : Store ν}

theorem child_mem_pages : {h : Nat} → {t : PT h} → {p c : Nat} → {keys : List Int} → {children : List Nat} →
    (p, Node.internal keys children) ∈ t.nodes (ν := ν) → c ∈ children → c ∈ t.pages
  | 0, t, p, c, keys, children, hn, _ => by
    obtain ⟨q, cells, l, rfl⟩ := PT.exists_leaf t
    simp at hn
  | h + 1, t, p, c, keys, children, hn, hc => by
    obtain ⟨q, ks, kids, rfl⟩ := PT.exists_branch t
    rw [PT.pages_branch]
    refine List.mem_cons_of_mem _ ?_
    rcases List.mem_cons.1 hn with hn | hn
    · change (p, Node.internal keys children) = (q, Node.internal ks (kids.map PT.page)) at hn
      obtain ⟨-, rfl, rfl⟩ : p = q ∧ keys = ks ∧ children = kids.map PT.page := by simpa using hn
      obtain ⟨d, hd, rfl⟩ := List.mem_map.1 hc
      exact List.mem_flatMap.2 ⟨d, hd, d.page_mem_pages⟩
    · obtain ⟨d, hd, hn⟩ := List.mem_flatMap.1 hn
      exact List.mem_flatMap.2 ⟨d, hd, child_mem_pages hn hc⟩

/-- The pages that can be reached from the root are those of the tree. -/
theorem Reaches.mem_pages {t : Tree} (ht : TreeAt s t) {p : Nat} (hr : Reaches s t.root p) : p ∈ t.pages := by
  induction hr with
  | root => exact t.root_mem_pages
  | @child p c keys children _ hn hc ih =>
    obtain ⟨h, t⟩ := t
    simp only [Tree.pages, PT.pagesL, List.flatMap_cons, List.flatMap_nil, List.append_nil] at ih ⊢
    rw [← PT.map_fst_nodes (ν := ν) t] at ih
    obtain ⟨⟨q, nd⟩, hx, rfl⟩ := List.mem_map.1 ih
    have hs := ht.good.stored (q, nd) (by simpa [PT.nodesL] using hx)
    simp only [hn, Except.ok.injEq] at hs
    exact child_mem_pages (hs ▸ hx) hc

theorem TreeAt.of_agree {t : Tree} (ht : TreeAt s t) (hn : ∀ p ∈ t.pages, s'.nodes p = s.nodes p)
    (hle : s.numPages ≤ s'.numPages) : TreeAt s' t :=
  ⟨ht.good.of_agree hn hle, ht.lastLink⟩

/-- The walk from the roots of some trees visits their pages and fails nowhere. -/
theorem does_collect {fuel : Nat} {visited : List Nat} {ts : List Tree} (hst : s.stale = [])
    (hs : ∀ t ∈ ts, ∀ x ∈ t.2.nodes, s.nodes x.1 = .ok x.2) (hr : ∀ t ∈ ts, ∀ p ∈ t.2.pages, 0 < p ∧ p < s.numPages)
    (hnd : (visited ++ ts.flatMap fun t => t.2.pages).Nodup) (hf : (ts.flatMap fun t => t.2.pages).length < fuel) :
    Does (BTree.collectTreePages fuel visited (ts.map Tree.root)) s
      (fun pages s' => s' = s ∧ pages.Perm (visited ++ ts.flatMap fun t => t.2.pages)) fun _ _ => False := by
  induction fuel generalizing visited ts with
  | zero => exact absurd hf (Nat.not_lt_zero _)
  | succ fuel ih =>
    rcases ts with _ | ⟨⟨h, t⟩, ts⟩
    · exact ⟨rfl, by simp⟩
    have hmid : ∀ (p : Nat) (rest : List Nat), (visited ++ p :: rest).Perm (p :: visited ++ rest) :=
      fun p rest => List.perm_middle
    rcases h with _ | h
    · obtain ⟨p, cells, l, rfl⟩ := PT.exists_leaf t
      have hp : p ∉ visited := fun hp => (List.nodup_append.1 hnd).2.2 p hp p (by simp) rfl
      simp only [List.flatMap_cons, PT.pages_leaf, List.singleton_append] at hnd hf ⊢
      rw [List.map_cons, Tree.root, PT.page_leaf, BTree.collectTreePages, if_neg hp, does_bind,
        does_load hst (hr _ List.mem_cons_self p (by simp))
          (hs _ List.mem_cons_self (p, .leaf cells (TreeLink.ofCode l)) (by simp))]
      refine (ih (fun t ht => hs t (List.mem_cons_of_mem _ ht)) (fun t ht => hr t (List.mem_cons_of_mem _ ht))
        ((hmid _ _).nodup_iff.1 hnd) (by simpa using hf)).mono ?_ fun _ _ he => he
      rintro pages s' ⟨rfl, hperm⟩
      exact ⟨rfl, hperm.trans (hmid _ _).symm⟩
    · obtain ⟨p, keys, kids, rfl⟩ := PT.exists_branch t
      have hp : p ∉ visited := fun hp => (List.nodup_append.1 hnd).2.2 p hp p (by simp) rfl
      simp only [List.flatMap_cons, PT.pages_branch, List.cons_append] at hnd hf ⊢
      rw [List.map_cons, Tree.root, PT.page_branch, BTree.collectTreePages, if_neg hp, does_bind,
        does_load hst (hr _ List.mem_cons_self p (by simp))
          (hs _ List.mem_cons_self (p, .internal keys (kids.map PT.page)) (by simp))]
      -- the trees on the stack once the root is popped
      obtain ⟨all, hall⟩ : ∃ all : List Tree, all = kids.reverse.map (Sigma.mk h) ++ ts := ⟨_, rfl⟩
      have hstack : (kids.map PT.page).reverse ++ ts.map Tree.root = all.map Tree.root := by
        simp [hall, Tree.root, Function.comp_def]
      have hpages : (visited ++ p :: (kids.flatMap PT.pages ++ ts.flatMap fun t => t.2.pages)).Perm
          (p :: visited ++ all.flatMap fun t => t.2.pages) := by
        refine (hmid _ _).trans (List.Perm.append_left _ ?_)
        rw [hall, List.flatMap_append, List.flatMap_map]
        exact ((List.reverse_perm kids).symm.flatMap_right _).append_right _
      have hmem : ∀ t ∈ all, (∃ c ∈ kids, t = ⟨h, c⟩) ∨ t ∈ ts := by
        intro t ht
        rcases List.mem_append.1 (hall ▸ ht) with ht | ht
        · obtain ⟨c, hc, rfl⟩ := List.mem_map.1 ht
          exact .inl ⟨c, List.mem_reverse.1 hc, rfl⟩
        · exact .inr ht
      simp only
      rw [hstack]
      refine (ih (fun t ht x hx => ?_) (fun t ht q hq => ?_) (hpages.nodup_iff.1 hnd) ?_).mono ?_ fun _ _ he => he
      · rcases hmem t ht with ⟨c, hc, rfl⟩ | ht
        · exact hs _ List.mem_cons_self x (List.mem_cons_of_mem _ (List.mem_flatMap.2 ⟨c, hc, hx⟩))
        · exact hs t (List.mem_cons_of_mem _ ht) x hx
      · rcases hmem t ht with ⟨c, hc, rfl⟩ | ht
        · exact hr _ List.mem_cons_self q (List.mem_cons_of_mem _ (List.mem_flatMap.2 ⟨c, hc, hq⟩))
        · exact hr t (List.mem_cons_of_mem _ ht) q hq
      · have hlen := hpages.length_eq
        simp only [List.length_append, List.length_cons] at hlen hf ⊢
        omega
      · rintro pages s' ⟨rfl, hperm⟩
        exact ⟨rfl, hperm.trans hpages.symm⟩

/-! ### Every statement keeps the owners apart -/

/-- `tree` names the tree of each table. -/
structure PageDb.Sound (d : PageDb ν) (tree : String → Tree) : Prop where
  stored : ∀ n r, d.tables n = some r → (tree n).root = r ∧ TreeAt d.store (tree n)
  apart : ∀ a b, (d.tables a).isSome → (d.tables b).isSome → a ≠ b → ∀ p ∈ (tree a).pages, p ∉ (tree b).pages
  notFree : ∀ n, (d.tables n).isSome → ∀ p ∈ (tree n).pages, p ∉ d.freePages
  nodup : d.freePages.Nodup
  free : ∀ p ∈ d.freePages, 0 < p ∧ p < d.store.numPages
  stale : d.store.stale = []
  pos : 0 < d.store.numPages

namespace PageDb

variable {d : PageDb ν} {tree : String → Tree} {name : String} {img : Except PyError (Node ν)}

theorem Sound.treeAt (hd : d.Sound tree) {n : String} (hn : (d.tables n).isSome) : TreeAt d.store (tree n) := by
  obtain ⟨r, hr⟩ := Option.isSome_iff_exists.1 hn
  exact (hd.stored n r hr).2

theorem Sound.lt (hd : d.Sound tree) {n : String} (hn : (d.tables n).isSome) {p : Nat} (hp : p ∈ (tree n).pages) :
    0 < p ∧ p < d.store.numPages :=
  (hd.treeAt hn).good.range p hp

theorem Sound.oneOwner (hd : d.Sound tree) : d.OneOwner where
  trees a b ra rb ha hb hne p hpa hpb := by
    obtain ⟨rfl, hta⟩ := hd.stored a ra ha
    obtain ⟨rfl, htb⟩ := hd.stored b rb hb
    exact hd.apart a b (by simp [ha]) (by simp [hb]) hne p (hpa.mem_pages hta) (hpb.mem_pages htb)
  tree a r ha p hp := by
    obtain ⟨rfl, ht⟩ := hd.stored a r ha
    have hp := hp.mem_pages ht
    have hlt := hd.lt (by simp [ha]) hp
    exact ⟨hlt.1.ne', hd.notFree a (by simp [ha]) p hp, hlt.2⟩
  nodup := hd.nodup
  free p hp := ⟨(hd.free p hp).1.ne', (hd.free p hp).2⟩

/-- Page 0 is in no tree. -/
theorem Sound.save (hd : d.Sound tree) : PageDb.Sound { d with store := d.store.saveCatalog img } tree where
  stored n r hr := by
    obtain ⟨hroot, ht⟩ := hd.stored n r hr
    refine ⟨hroot, ht.of_agree (fun p hp => ?_) (le_max_left _ _)⟩
    exact Function.update_of_ne (ht.good.range p hp).1.ne' _ _
  apart := hd.apart
  notFree := hd.notFree
  nodup := hd.nodup
  free p hp := ⟨(hd.free p hp).1, (hd.free p hp).2.trans_le (le_max_left _ _)⟩
  stale := by simp [Store.saveCatalog, hd.stale]
  pos := hd.pos.trans_le (le_max_left _ _)

/-- The table `name` gets the tree `t`, which takes no page of another tree and none that stays free. -/
theorem Sound.replace {s : Store ν} {t : Tree} {freePages : List Nat} (hd : d.Sound tree) (ht : TreeAt s t)
    (hother : ∀ n, n ≠ name → (d.tables n).isSome → ∀ p ∈ (tree n).pages, p ∉ t.pages ∧ s.nodes p = d.store.nodes p)
    (hfree : ∀ p ∈ t.pages, p ∉ freePages) (hsub : freePages.Sublist d.freePages) (hle : d.store.numPages ≤ s.numPages)
    (hst : s.stale = []) :
    PageDb.Sound ⟨s, Function.update d.tables name (some t.root), freePages⟩ (Function.update tree name t) where
  stored n r hr := by
    by_cases hn : n = name
    · subst hn
      simp only [Function.update_self, Option.some.injEq] at hr ⊢
      exact ⟨hr, ht⟩
    · simp only [Function.update_of_ne hn] at hr ⊢
      obtain ⟨hroot, htree⟩ := hd.stored n r hr
      exact ⟨hroot, htree.of_agree (fun p hp => (hother n hn (by simp [hr]) p hp).2) hle⟩
  apart a b ha hb hne p hpa hpb := by
    by_cases hna : a = name
    · subst hna
      have hnb : b ≠ a := hne.symm
      simp only [Function.update_self, Function.update_of_ne hnb] at hpa hpb hb
      exact (hother b hnb hb p hpb).1 hpa
    · by_cases hnb : b = name
      · subst hnb
        simp only [Function.update_self, Function.update_of_ne hna] at hpa hpb ha
        exact (hother a hna ha p hpa).1 hpb
      · simp only [Function.update_of_ne hna, Function.update_of_ne hnb] at hpa hpb ha hb
        exact hd.apart a b ha hb hne p hpa hpb
  notFree n hn p hp := by
    by_cases hname : n = name
    · subst hname
      rw [Function.update_self] at hp
      exact hfree p hp
    · simp only [Function.update_of_ne hname] at hn hp
      exact fun hm => hd.notFree n hn p hp (hsub.subset hm)
  nodup := hd.nodup.sublist hsub
  free p hp := ⟨(hd.free p (hsub.subset hp)).1, (hd.free p (hsub.subset hp)).2.trans_le hle⟩
  stale := hst
  pos := hd.pos.trans_le hle

/-- The tree of a table was changed in its place. -/
theorem Sound.left {s : Store ν} {root : Nat} (hd : d.Sound tree) (hn : (d.tables name).isSome)
    (hl : Left d.store (tree name) root s) :
    ∃ tree', PageDb.Sound ⟨s, Function.update d.tables name (some root), d.freePages⟩ tree' := by
  obtain ⟨t, rfl, ht, hm, hst⟩ := hl
  refine ⟨_, hd.replace ht (fun n hne hsome p hp => ?_) (fun p hp hfree => ?_) (.refl _) hm.numPages hst⟩
  · have hp' : p ∉ (tree name).pages := hd.apart n name hsome hn hne p hp
    have hlt := (hd.lt hsome hp).2
    refine ⟨fun hpt => ?_, hm.frame p hlt hp'⟩
    rcases hm.pages p hpt with h | h
    · exact hp' h
    · exact absurd hlt (not_lt.2 h)
  · rcases hm.pages p hp with h | h
    · exact hd.notFree name hn p h hfree
    · exact absurd (hd.free p hfree).2 (not_lt.2 h)

/-- The tree of a table was built on new pages. -/
theorem Sound.built {s : Store ν} {root : Nat} (hd : d.Sound tree) (hb : Built d.store root s) :
    ∃ tree', PageDb.Sound ⟨s, Function.update d.tables name (some root), d.freePages⟩ tree' := by
  obtain ⟨t, rfl, ht, he, hnew⟩ := hb
  refine ⟨_, hd.replace ht (fun n hne hsome p hp => ?_) (fun p hp hfree => ?_) (.refl _) he.numPages he.stale⟩
  · have hlt := (hd.lt hsome hp).2
    exact ⟨fun hpt => absurd hlt (not_lt.2 (hnew p hpt)), he.frame p hlt⟩
  · exact absurd (hd.free p hfree).2 (not_lt.2 (hnew p hp))

/-- The loop over the rows keeps what each call keeps. -/
theorem eachRow_left {α : Type} {call : Nat → Nat → α → EStateM Failure (Store ν) Nat}
    (hcall : ∀ s t row, TreeAt s t → s.stale = [] → Exec.Post (call s.numPages t.root row) s (Left s t) fun _ _ => True)
    {s : Store ν} {t : Tree} (ht : TreeAt s t) (hst : s.stale = []) (rows : List α) :
    Exec.Post (BTree.eachRow call t.root rows) s (Left s t) fun _ _ => True := by
  induction rows generalizing s t with
  | nil => exact ⟨t, rfl, ht, ⟨fun _ => .inl, fun _ _ _ => rfl, le_rfl⟩, hst⟩
  | cons row rows ih =>
    have hpost := hcall s t row ht hst
    rcases hrun : call s.numPages t.root row s with ⟨root, s'⟩ | ⟨e, s'⟩ <;>
      simp only [Exec.Post, BTree.eachRow, hrun]
    · obtain ⟨t', rfl, ht', hm, hst'⟩ := hpost.of_ok hrun
      exact (ih ht' hst').mono (fun _ _ hl => hl.after hm) fun _ _ he => he

theorem Sound.onTable {d' : PageDb ν} {change : Nat → EStateM Failure (Store ν) Nat} (hd : d.Sound tree)
    (hchange : (d.tables name).isSome → Exec.Post (change (tree name).root) d.store (fun root s =>
      ∃ tree', PageDb.Sound ⟨s, Function.update d.tables name (some root), d.freePages⟩ tree') fun _ _ => True)
    (he : d.onTable name img change = some d') : ∃ tree', d'.Sound tree' := by
  rw [PageDb.onTable] at he
  rcases hr : d.tables name with _ | root
  · simp [hr] at he
  · obtain ⟨rfl, -⟩ := hd.stored name root hr
    have hpost := hchange (by simp [hr])
    rcases hrun : change (tree name).root d.store with ⟨root', s⟩ | ⟨e, s⟩
    · simp only [hr, hrun, Option.some.injEq] at he
      obtain ⟨tree', h⟩ := hpost.of_ok hrun
      exact ⟨tree', he ▸ h.save⟩
    · simp [hr, hrun] at he

/-- The rows of a statement go into the tree one after the other. -/
theorem Sound.eachRow {α : Type} {call : Nat → Nat → α → EStateM Failure (Store ν) Nat} {d' : PageDb ν} {rows : List α}
    (hd : d.Sound tree)
    (hcall : ∀ s t row, TreeAt s t → s.stale = [] → Exec.Post (call s.numPages t.root row) s (Left s t) fun _ _ => True)
    (he : d.onTable name img (fun root => BTree.eachRow call root rows) = some d') : ∃ tree', d'.Sound tree' :=
  hd.onTable (fun hn => (eachRow_left hcall (hd.treeAt hn) hd.stale rows).mono (fun _ _ hl => hd.left hn hl) fun _ _ he => he) he

/-- The root of a new table is a page that was free, or a new page. -/
theorem Sound.newRoot (hd : d.Sound tree) : Does (BTree.newRoot d.freePages) d.store (fun root s =>
    ∃ tree', PageDb.Sound ⟨s, Function.update d.tables name (some root), d.freePages.dropLast⟩ tree') fun _ _ => True := by
  rw [BTree.newRoot]
  rcases hlast : d.freePages.getLast? with _ | p
  · have hnil : d.freePages = [] := List.getLast?_eq_none_iff.1 hlast
    simp only
    rw [does_bind, does_allocate, does_bind]
    refine does_write ?_ fun _ _ => trivial
    have hbuilt := @Sound.built ν _ d tree name _ _ hd (builtOn_empty hd.stale hd.pos).built
    have hdrop : d.freePages.dropLast = d.freePages := by rw [hnil, List.dropLast_nil]
    rw [does_pure, hdrop]
    exact hbuilt
  · obtain ⟨free, hfree⟩ := List.getLast?_eq_some_iff.1 hlast
    have hmem : p ∈ d.freePages := by simp [hfree]
    have hnd := hd.nodup
    rw [hfree, List.nodup_append] at hnd
    simp only
    rw [does_bind, does_pure, does_bind]
    refine does_write ⟨_, hd.replace (t := ⟨0, PT.leaf p [] noPage⟩) ⟨good_leaf .nil (by simp) (by simp) ?_ ?_, rfl⟩ ?_ ?_
      (List.dropLast_sublist _) (le_max_left _ _) ?_⟩ fun _ _ => trivial
    · rw [Store.nodes_set_self, BTree.newLeaf, Node.reread, TreeLink.code_ofCode]
    · exact ⟨(hd.free p hmem).1, (hd.free p hmem).2.trans_le (le_max_left _ _)⟩
    · intro n _ hsome q hq
      have hne : q ≠ p := fun h => hd.notFree n hsome q hq (h ▸ hmem)
      exact ⟨by simpa [Tree.pages, PT.pagesL] using hne, Store.nodes_set_other hne⟩
    · intro q hq
      obtain rfl : q = p := by simpa [Tree.pages, PT.pagesL] using hq
      rw [hfree, List.dropLast_concat]
      exact fun hq => hnd.2.2 q hq q (by simp) rfl
    · simp [Store.set, hd.stale]

theorem Sound.createTable {d' : PageDb ν} (hd : d.Sound tree) (he : d.createTable name img = some d') :
    ∃ tree', d'.Sound tree' := by
  have hnew := @Sound.newRoot ν _ d tree name hd
  rw [PageDb.createTable] at he
  rcases hrun : (BTree.newRoot d.freePages).run d.store with ⟨root, s⟩ | ⟨e, s⟩
  · simp only [hrun] at he
    split at he
    · cases he
    · obtain ⟨tree', h⟩ := hnew.of_ok hrun
      exact ⟨tree', Option.some.inj he ▸ h.save⟩
  · simp [hrun] at he

/-- The pages of a dropped table become free. -/
theorem Sound.dropTable {d' : PageDb ν} (hd : d.Sound tree) (he : d.dropTable name img = some d') :
    ∃ tree', d'.Sound tree' := by
  rw [PageDb.dropTable] at he
  rcases hr : d.tables name with _ | root
  · simp [hr] at he
  obtain ⟨rfl, ht⟩ := hd.stored name root hr
  have hn : (d.tables name).isSome := by simp [hr]
  have hpages : (tree name).2.pages = (tree name).pages := (tree name).pages_eq.symm
  have hcollect := @does_collect ν _ d.store (d.store.numPages + 1) [] [tree name] hd.stale
    (by simpa [PT.nodesL] using ht.good.stored) (by simpa [PT.pagesL] using ht.good.range)
    (by simpa [PT.pagesL] using ht.good.nodup) ?_
  swap
  · have hlen := ht.length_pages_le
    simp only [List.flatMap_cons, List.flatMap_nil, List.append_nil, hpages]
    omega
  rcases hrun : (BTree.collectTreePages (d.store.numPages + 1) [] [(tree name).root]).run d.store with ⟨pages, s⟩ | ⟨e, s⟩
  swap
  · simp [hr, hrun] at he
  obtain ⟨rfl, hperm⟩ := hcollect.of_ok hrun
  simp only [List.nil_append, List.flatMap_cons, List.flatMap_nil, List.append_nil, hpages] at hperm
  simp only [hr, hrun, Option.some.injEq] at he
  have hfreed : ((pages.insert (tree name).root).insertionSort (· ≥ ·)).Perm (tree name).pages := by
    rw [List.insert_of_mem (hperm.mem_iff.2 (tree name).root_mem_pages)]
    exact (List.perm_insertionSort _ _).trans hperm
  generalize (pages.insert (tree name).root).insertionSort (· ≥ ·) = freed at he hfreed
  suffices hs : PageDb.Sound ⟨d.store, Function.update d.tables name none, d.freePages ++ freed⟩ tree from ⟨tree, he ▸ hs.save⟩
  refine ⟨?_, ?_, ?_, ?_, ?_, hd.stale, hd.pos⟩
  · intro n r hnr
    by_cases hne : n = name
    · simp [hne] at hnr
    · simp only [Function.update_of_ne hne] at hnr
      exact hd.stored n r hnr
  · intro a b ha hb hne
    by_cases hna : a = name
    · simp [hna] at ha
    · by_cases hnb : b = name
      · simp [hnb] at hb
      · simp only [Function.update_of_ne hna, Function.update_of_ne hnb] at ha hb
        exact hd.apart a b ha hb hne
  · intro n hsome p hp
    by_cases hne : n = name
    · simp [hne] at hsome
    · simp only [Function.update_of_ne hne] at hsome
      rw [List.mem_append, hfreed.mem_iff, not_or]
      exact ⟨hd.notFree n hsome p hp, hd.apart n name hsome hn hne p hp⟩
  · refine List.nodup_append.2 ⟨hd.nodup, hfreed.nodup_iff.2 ht.good.nodup, fun p hp q hq hpq => ?_⟩
    exact hd.notFree name hn q (hfreed.mem_iff.1 hq) (hpq ▸ hp)
  · intro p hp
    rcases List.mem_append.1 hp with hp | hp
    · exact hd.free p hp
    · exact hd.lt hn (hfreed.mem_iff.1 hp)

/-- Every statement that completes keeps the owners apart. -/
theorem Sound.exec {d' : PageDb ν} {a : Statement × Except PyError (Node ν)} (hd : d.Sound tree) (he : d.exec a = some d') :
    ∃ tree', d'.Sound tree' := by
  have hins : ∀ {rows : List (Int × Bytes)} {table : String} {img : Except PyError (Node ν)},
      d.onTable table img (insertRows rows) = some d' → ∃ tree', d'.Sound tree' := by
    intro rows table img he
    refine hd.eachRow (fun s t row ht hst => ?_) he
    exact (does_insert ht hst row.1 row.2).mono (fun _ _ hl => hl) fun _ _ _ => trivial
  obtain ⟨stmt, img⟩ := a
  cases stmt with
  | createTable name => exact hd.createTable he
  | dropTable name => exact hd.dropTable he
  | insert table rows => exact hins he
  | bulkInsert table rows => exact hins he
  | update table rows =>
    refine hd.eachRow (fun s t row ht hst => ?_) he
    exact (does_upsert ht hst row.1 row.2).mono (fun _ _ hl => hl) fun _ _ _ => trivial
  | delete table rids =>
    refine hd.eachRow (fun s t rid ht hst => ?_) he
    refine does_bind.2 ((does_delete ht hst rid).mono (fun _ _ hl => hl) fun _ _ _ => trivial)
  | vacuum table =>
    refine hd.onTable (fun hn => ?_) he
    refine does_bind.2 ((does_vacuum (hd.treeAt hn) hd.stale).mono (fun _ _ hb => ?_) fun _ _ _ => trivial)
    exact hd.built hb

theorem sound_fresh (nodes : Nat → Except PyError (Node ν)) :
    (PageDb.fresh nodes).Sound fun _ => ⟨0, PT.leaf 0 [] noPage⟩ where
  stored n r hr := by cases hr
  apart a b ha := by cases ha
  notFree n hn := by cases hn
  nodup := .nil
  free p hp := by cases hp
  stale := rfl
  pos := Nat.one_pos

/-- In every state of a run no page has two owners. -/
theorem oneOwner_of_run {nodes : Nat → Except PyError (Node ν)} {as : List (Statement × Except PyError (Node ν))}
    (hrun : Run PageDb.exec (fun _ _ => True) (PageDb.fresh nodes) as d) : d.OneOwner := by
  obtain ⟨tree, hd⟩ := hrun.invariant (P := fun d => ∃ tree, PageDb.Sound d tree)
    (fun _ _ _ ⟨_, hd⟩ _ he => hd.exec he) ⟨_, sound_fresh nodes⟩
  exact hd.oneOwner

theorem oneOwner_of_reuse : ∃ d : PageDb (Option Nat), d.tables "b" = some 1 ∧ d.OneOwner := by
  have hrun : ∃ d : PageDb (Option Nat), d.tables "b" = some 1 ∧
      Run PageDb.exec (fun _ _ => True) (PageDb.fresh fun _ => .error .valueError)
        [(.createTable "a", .error .valueError), (.insert "a" [(5, [7])], .error .valueError),
          (.dropTable "a", .error .valueError), (.createTable "b", .error .valueError)] d :=
    ⟨_, rfl, .cons trivial rfl (.cons trivial rfl (.cons trivial rfl (.cons trivial rfl (.nil _))))⟩
  obtain ⟨d, hb, hrun⟩ := hrun
  exact ⟨d, hb, oneOwner_of_run hrun⟩

end PageDb

end Exec

end LeafDb
