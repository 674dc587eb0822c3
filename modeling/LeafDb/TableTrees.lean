import LeafDb.PageOwners
import LeafDb.Sql.BulkInsert
import LeafDb.TreeSession

/-!
# The trees of all tables

The catalog names the root of a tree for each table. `TableTrees s c maps tree` says what is on the pages `s` then: no page is in
two trees, or in a tree and the free list, and the tree of each table has the pairs of its map. A call on one tree, a new
table and a dropped table leave the trees of the other tables as they are.
-/

namespace LeafDb

open PyTree (Call Reply Holds Lists Refines)

/-! ### The tables of a catalog -/

theorem mem_dictSet_iff {β : Type} {d : List (String × β)} {key k : String} {v w : β} :
    (k, w) ∈ dictSet d key v ↔ k = key ∧ w = v ∨ k ≠ key ∧ (k, w) ∈ d := by
  rw [dictSet]
  split
  · rename_i hkey
    rw [List.mem_map]
    constructor
    · rintro ⟨e, he, hw⟩
      split at hw
      · cases hw
        exact .inl ⟨rfl, rfl⟩
      · subst hw
        exact .inr ⟨‹_›, he⟩
    · rintro (⟨rfl, rfl⟩ | ⟨hne, hm⟩)
      · obtain ⟨e, he, hk⟩ := List.mem_map.1 hkey
        exact ⟨e, he, if_pos hk⟩
      · exact ⟨_, hm, if_neg hne⟩
  · rename_i hkey
    rw [List.mem_append, List.mem_singleton, Prod.mk.injEq]
    constructor
    · rintro (hm | h)
      · exact .inr ⟨fun hk => hkey (hk ▸ List.mem_map_of_mem hm), hm⟩
      · exact .inl h
    · rintro (h | ⟨-, hm⟩)
      · exact .inr h
      · exact .inl hm

/-- The entries of a dictionary after a change to one. -/
theorem update_eq_some_iff {β : Type} {f : String → Option β} {key k : String} {o : Option β} {b : β} :
    Function.update f key o k = some b ↔ k = key ∧ o = some b ∨ k ≠ key ∧ f k = some b := by
  rw [Function.update_apply]
  by_cases hk : k = key <;> simp [hk]

namespace Catalog

variable {c c' : Catalog} {key k name : String} {m : TableMeta}

/-- `tables.get(key)`. -/
def entry (c : Catalog) (key : String) : Option TableMeta := (c.tables.find? (·.1 = key)).map Prod.snd

/-- The roots of the tables. -/
def roots (c : Catalog) (key : String) : Option Nat := (c.entry key).map TableMeta.rootPage

/-- `del tables[key]`. -/
def delTable (c : Catalog) (key : String) : Catalog :=
  ⟨c.tables.filter (·.1 ≠ key), c.freePages, (List.filter_sublist.map Prod.fst).nodup c.nodup⟩

/-- The catalog without its free list. -/
def reloaded (c : Catalog) : Catalog := ⟨c.tables, [], c.nodup⟩

theorem entry_eq_some : c.entry key = some m ↔ (key, m) ∈ c.tables := by
  rw [entry]
  cases hf : c.tables.find? (·.1 = key) with
  | none =>
    refine iff_of_false (by simp) fun hm => ?_
    have := List.find?_eq_none.1 hf _ hm
    simp at this
  | some e =>
    have hk : e.1 = key := by simpa using List.find?_some hf
    have hmem : (key, e.2) ∈ c.tables := hk ▸ List.mem_of_find?_eq_some hf
    constructor
    · intro h
      obtain rfl : e.2 = m := Option.some.inj h
      exact hmem
    · intro hm
      rw [Option.map_some, eq_of_mem hm hmem]

theorem get_eq_ok : c.get name = .ok m ↔ c.entry name.toLower = some m := by
  rw [get, entry]
  cases c.tables.find? (·.1 = name.toLower) with
  | none => exact iff_of_false (by simp) (by simp)
  | some e => simp

theorem entry_congr (h : c'.tables = c.tables) : c'.entry = c.entry := by
  funext key
  rw [entry, h, entry]

theorem roots_congr (h : c'.tables = c.tables) : c'.roots = c.roots := by
  funext key
  rw [roots, entry_congr h, roots]

theorem entry_setTable (c : Catalog) (key : String) (m : TableMeta) :
    (c.setTable key m).entry = Function.update c.entry key (some m) := by
  funext k
  refine Option.ext fun e => ?_
  rw [entry_eq_some, update_eq_some_iff, entry_eq_some, Option.some.injEq, eq_comm (a := m)]
  exact mem_dictSet_iff

theorem entry_delTable (c : Catalog) (key : String) : (c.delTable key).entry = Function.update c.entry key none := by
  funext k
  refine Option.ext fun e => ?_
  rw [entry_eq_some, update_eq_some_iff, entry_eq_some]
  simp [delTable, and_comm]

theorem roots_update {c c' : Catalog} {key : String} {o : Option TableMeta} (h : c'.entry = Function.update c.entry key o) :
    c'.roots = Function.update c.roots key (o.map TableMeta.rootPage) := by
  funext k
  rw [roots, h, Function.update_apply, Function.update_apply]
  by_cases hk : k = key
  · rw [if_pos hk, if_pos hk]
  · rw [if_neg hk, if_neg hk, roots]

theorem isSome_roots : (c.roots key).isSome = (c.entry key).isSome := Option.isSome_map ..

end Catalog

/-! ### Calls move one tree -/

section Left

variable {ν : Type} [TreeLink ν] {s : Store ν}

/-- The pages of a tree are those that its root reaches. -/
theorem reaches_of_nodes {root : Nat} : {h : Nat} → {t : PT h} → (∀ x ∈ t.nodes (ν := ν), s.nodes x.1 = .ok x.2) →
    Reaches s root t.page → ∀ p ∈ t.pages, Reaches s root p
  | 0, t, _, hr, p, hp => by
    obtain ⟨q, cells, l, rfl⟩ := PT.exists_leaf t
    rw [PT.pages_leaf, List.mem_singleton] at hp
    exact hp ▸ hr
  | h + 1, t, hs, hr, p, hp => by
    obtain ⟨q, keys, kids, rfl⟩ := PT.exists_branch t
    rw [PT.pages_branch] at hp
    rcases List.mem_cons.1 hp with rfl | hp
    · exact hr
    · obtain ⟨d, hd, hp⟩ := List.mem_flatMap.1 hp
      have hstored : s.nodes q = .ok (.internal keys (kids.map PT.page)) := hs (q, .internal keys (kids.map PT.page)) (by simp)
      refine reaches_of_nodes (t := d) (fun x hx => hs x ?_) (.child hr hstored (List.mem_map_of_mem hd)) p hp
      rw [PT.nodes_branch]
      exact List.mem_cons_of_mem _ (List.mem_flatMap.2 ⟨d, hd, hx⟩)

theorem TreeAt.reaches {t : Tree} (ht : TreeAt s t) {p : Nat} (hp : p ∈ t.pages) : Reaches s t.root p :=
  reaches_of_nodes (fun x hx => ht.good.stored x (by simpa [PT.nodesL] using hx)) .root p (t.pages_eq ▸ hp)

/-- Whatever tree is at the root now has the pages that the operation left to it. -/
theorem Left.moved {s' : Store ν} {t t' : Tree} (h : Left s t t'.root s') (ht : TreeAt s' t') : Moved s s' t t' := by
  obtain ⟨u, hroot, hu, hm, -⟩ := h
  exact ⟨fun p hp => hm.pages p ((hroot ▸ ht.reaches hp).mem_pages hu), hm.frame, hm.numPages⟩

theorem Left.refl {t : Tree} (ht : TreeAt s t) (hst : s.stale = []) : Left s t t.root s :=
  ⟨t, rfl, ht, ⟨fun _ => .inl, fun _ _ _ => rfl, le_rfl⟩, hst⟩

end Left

namespace PyTree

variable {t t' : PyTree} {root root' : Nat} {tr : Tree} {α : Type}

theorem Holds.left_of_run (h : Holds t root tr) {x : TreeM (Option Nat) α} {f : α → Nat}
    {E : Failure → Store (Option Nat) → Prop} (hd : Does x t.store (fun a s => Left t.store tr (f a) s) E)
    (hE : ∀ s, ¬E .stale s) {a : α} (hx : x.exec t = .ok a t') : Left t.store tr (f a) t'.store := by
  obtain ⟨s, hrun, hr⟩ := h.reads.run_ok hd hE hx
  have hl := hd.of_ok hrun
  obtain ⟨-, -, -, -, hst⟩ := id hl
  exact hr.eq_store hst ▸ hl

theorem Holds.left_insert (h : Holds t root tr) {key : Int} {value : Bytes} {r : Nat} (hx : t.insert root key value = .ok r t') :
    Left t.store tr r t'.store := by
  have hdoes := does_insert h.sound.tree h.sound.stale key value
  rw [h.sound.root] at hdoes
  exact h.left_of_run hdoes (fun _ he => he.1 rfl) hx

theorem Holds.store_of_duplicate (h : Holds t root tr) {key k : Int} {value : Bytes}
    (hx : t.insert root key value = .error (.duplicateKey k) t') : t'.store = t.store := by
  have hdoes := does_insert h.sound.tree h.sound.stale key value
  rw [h.sound.root] at hdoes
  obtain ⟨s, -, he, hr⟩ := h.reads.run_error hdoes (fun _ he => he.1 rfl) hx
  obtain ⟨rfl, -, -⟩ := he.2.2 k rfl
  exact (hr.eq_store rfl).symm

theorem Holds.left_overwrite (h : Holds t root tr) {key : Int} {value : Bytes} {r : Nat} (hv : value.length ≤ maxValueSize)
    (hkey : ∃ v, (key, v) ∈ tr.cells) (hx : (BTree.overwrite root key value t.pager.numPages root).exec t = .ok r t') :
    Left t.store tr r t'.store := by
  have hup := upsert_of_present h.sound.tree h.sound.stale hkey hv
  have hdoes := does_upsert h.sound.tree h.sound.stale key value
  rw [Exec.Post, hup, h.sound.root] at hdoes
  exact h.left_of_run (f := fun r => r) hdoes (fun _ he => he.1 rfl) hx

/-- What a call leaves of the pages. -/
theorem Holds.call_left (h : Holds t root tr) (hl : tr.Linkable) {c : Call} (hc : c.Legal) {r : Reply}
    (hx : t.call root c = some (r, t', root')) : Left t.store tr root' t'.store := by
  have hsame : t'.store = t.store → Left t.store tr root t'.store := by
    intro he
    rw [he, ← h.sound.root]
    exact .refl h.sound.tree h.sound.stale
  cases c with
  | insert key value =>
    rcases reply_eq_some hx with ⟨a, hy, hf⟩ | ⟨k, hy, rfl, rfl⟩
    · cases hf
      exact h.left_insert hy
    · exact hsame (h.store_of_duplicate hy)
  | upsert key value =>
    rw [PyTree.call, upsert] at hx
    rcases hins : t.insert root key value with ⟨a, u⟩ | ⟨e, u⟩
    · rw [hins] at hx
      cases hx
      exact h.left_insert hins
    · rw [hins] at hx
      cases e
      case duplicateKey k =>
        obtain ⟨h', hkey⟩ := h.insert_duplicate hins
        rcases reply_eq_some hx with ⟨a, hy, hf⟩ | ⟨k, hy, -⟩
        · cases hf
          rw [← h.store_of_duplicate hins]
          exact h'.left_overwrite hc.2 hkey hy
        · exact absurd rfl ((h'.overwrite hc.2 hkey).of_error hy k)
      all_goals cases hx
  | delete key =>
    rcases reply_eq_some hx with ⟨a, hy, hf⟩ | ⟨k, hy, -⟩
    · cases hf
      have hdoes := does_delete h.sound.tree h.sound.stale key
      rw [h.sound.root] at hdoes
      exact h.left_of_run hdoes (fun _ he => he.1 rfl) hy
    · exact absurd rfl ((h.delete key).of_error hy k)
  | search key =>
    have hdoes := does_lookup h.sound.tree h.sound.stale key
    rw [h.sound.root] at hdoes
    obtain ⟨v, u, s, hv, ⟨rfl, -⟩, hr⟩ := h.reads.exec_total hdoes
    rw [PyTree.call, ← numPages_store, hv] at hx
    cases hx
    exact hsame (hr.eq_store rfl).symm
  | rangeScan lo hi =>
    have hdoes := does_range h.sound.tree h.sound.stale (fun l hm => hl l.page ?_) lo hi
    swap
    · simpa [PT.leafPages, PT.leavesL, List.map_tail] using List.mem_map_of_mem (f := PLeaf.page) hm
    rw [h.sound.root] at hdoes
    obtain ⟨out, u, s, hu, ⟨rfl, -⟩, hr⟩ := h.reads.exec_total hdoes
    rw [PyTree.call, ← numPages_store, hu] at hx
    cases hx
    exact hsame (hr.eq_store rfl).symm

end PyTree

/-! ### All tables -/

theorem SoundTree.of_agree {s s' : Store (Option Nat)} {root : Nat} {tr : Tree} (h : SoundTree s root tr)
    (hn : ∀ p ∈ tr.pages, s'.nodes p = s.nodes p) (hle : s.numPages ≤ s'.numPages) (hst : s'.stale = []) : SoundTree s' root tr :=
  ⟨h.tree.of_agree hn hle, h.root, hst, h.legal, h.keyed⟩

/-- The pages of a table that is dropped become free. -/
theorem PageDb.Sound.freed {ν : Type} [TreeLink ν] {d : PageDb ν} {tree : String → Tree} {name : String} (hd : d.Sound tree)
    (hn : (d.tables name).isSome) {pages : List Nat} (hperm : pages.Perm (tree name).pages) :
    PageDb.Sound ⟨d.store, Function.update d.tables name none, d.freePages ++ pages⟩ tree := by
  have hkept : ∀ {k r}, Function.update d.tables name none k = some r → k ≠ name ∧ d.tables k = some r := fun hk => by
    rcases update_eq_some_iff.1 hk with ⟨-, hr⟩ | hk
    · cases hr
    · exact hk
  have hsome : ∀ {k}, (Function.update d.tables name none k).isSome → k ≠ name ∧ (d.tables k).isSome := fun hk => by
    obtain ⟨r, hr⟩ := Option.isSome_iff_exists.1 hk
    exact ⟨(hkept hr).1, by rw [(hkept hr).2]; rfl⟩
  refine ⟨fun k r hr => hd.stored k r (hkept hr).2, fun a b ha hb => hd.apart a b (hsome ha).2 (hsome hb).2,
    fun k hk p hp => ?_, ?_, fun p hp => ?_, hd.stale, hd.pos⟩
  · rw [List.mem_append, hperm.mem_iff, not_or]
    exact ⟨hd.notFree k (hsome hk).2 p hp, hd.apart k name (hsome hk).2 hn (hsome hk).1 p hp⟩
  · refine List.nodup_append.2 ⟨hd.nodup, hperm.nodup_iff.2 (hd.treeAt hn).good.nodup, fun p hp q hq hpq => ?_⟩
    exact hd.notFree name hn q (hperm.mem_iff.1 hq) (hpq ▸ hp)
  · rcases List.mem_append.1 hp with hp | hp
    · exact hd.free p hp
    · exact hd.lt hn (hperm.mem_iff.1 hp)

/-- The rows of each table by its key in the catalog. -/
abbrev TableMaps := String → Option (Int → Option Bytes)

/-- The pages have the tables of `c`, each with the pairs of its map. -/
structure TableTrees (s : Store (Option Nat)) (c : Catalog) (maps : TableMaps) (tree : String → Tree) : Prop where
  owners : PageDb.Sound ⟨s, c.roots, c.freePages⟩ tree
  table : ∀ key e, c.entry key = some e → SoundTree s e.rootPage (tree key) ∧ (tree key).Linkable ∧
    ∃ m, maps key = some m ∧ Lists (tree key).cells m
  absent : ∀ key, c.entry key = none → maps key = none
  named : ∀ key e, c.entry key = some e → e.name = key

namespace TableTrees

variable {s s' : Store (Option Nat)} {c c' : Catalog} {maps : TableMaps} {tree : String → Tree} {key : String} {e : TableMeta}

theorem pages_lt (h : TableTrees s c maps tree) (he : c.entry key = some e) {p : Nat} (hp : p ∈ (tree key).pages) :
    0 < p ∧ p < s.numPages :=
  (h.table key e he).1.tree.good.range p hp

/-- A page of a tree is in no other tree. -/
theorem other (h : TableTrees s c maps tree) (he : c.entry key = some e) {k : String} (hk : k ≠ key) {f : TableMeta}
    (hf : c.entry k = some f) {p : Nat} (hp : p ∈ (tree k).pages) : p ∉ (tree key).pages :=
  h.owners.apart k key (by rw [Catalog.isSome_roots, hf]; rfl) (by rw [Catalog.isSome_roots, he]; rfl) hk p hp

/-- Pages outside the trees change. -/
theorem frame (h : TableTrees s c maps tree) (hn : ∀ key e, c.entry key = some e → ∀ p ∈ (tree key).pages, s'.nodes p = s.nodes p)
    (hle : s.numPages ≤ s'.numPages) (hst : s'.stale = []) : TableTrees s' c maps tree where
  owners := {
    stored := fun k r hr => by
      obtain ⟨e, he, rfl⟩ := Option.map_eq_some_iff.1 hr
      obtain ⟨hs, -⟩ := h.table k e he
      exact ⟨hs.root, hs.tree.of_agree (hn k e he) hle⟩
    apart := h.owners.apart
    notFree := h.owners.notFree
    nodup := h.owners.nodup
    free := fun p hp => ⟨(h.owners.free p hp).1, (h.owners.free p hp).2.trans_le hle⟩
    stale := hst
    pos := h.owners.pos.trans_le hle }
  table k e he := by
    obtain ⟨hs, hrest⟩ := h.table k e he
    exact ⟨hs.of_agree (hn k e he) hle hst, hrest⟩
  absent := h.absent
  named := h.named

/-- The same tables and a part of the free list. -/
theorem of_tables (h : TableTrees s c maps tree) (ht : c'.tables = c.tables) (hf : c'.freePages.Sublist c.freePages) :
    TableTrees s c' maps tree where
  owners := by
    rw [Catalog.roots_congr ht]
    exact {
      stored := h.owners.stored
      apart := h.owners.apart
      notFree := fun k hk p hp hfree => h.owners.notFree k hk p hp (hf.subset hfree)
      nodup := h.owners.nodup.sublist hf
      free := fun p hp => h.owners.free p (hf.subset hp)
      stale := h.owners.stale
      pos := h.owners.pos }
  table := by
    rw [Catalog.entry_congr ht]
    exact h.table
  absent := by
    rw [Catalog.entry_congr ht]
    exact h.absent
  named := by
    rw [Catalog.entry_congr ht]
    exact h.named

/-- The tables in a store with as many pages as the trees have. -/
theorem resize {C : Nat → Bytes} {n m : Nat} (h : TableTrees (pagesOf C n) c maps tree) (hfree : c.freePages = []) (hpos : 0 < m)
    (hm : ∀ key e, c.entry key = some e → ∀ p ∈ (tree key).pages, p < m) : TableTrees (pagesOf C m) c maps tree where
  owners := {
    stored := fun k r hr => by
      obtain ⟨e, he, rfl⟩ := Option.map_eq_some_iff.1 hr
      obtain ⟨hs, -⟩ := h.table k e he
      exact ⟨hs.root, (hs.resize (hm k e he)).tree⟩
    apart := h.owners.apart
    notFree := h.owners.notFree
    nodup := h.owners.nodup
    free := fun p hp => by
      rw [hfree] at hp
      cases hp
    stale := rfl
    pos := hpos }
  table k e he := by
    obtain ⟨hs, hrest⟩ := h.table k e he
    exact ⟨hs.resize (hm k e he), hrest⟩
  absent := h.absent
  named := h.named

/-- The tree of one table is another one, or there is a new table. -/
theorem replace (h : TableTrees s c maps tree) {root : Nat} {tr : Tree} {m : Int → Option Bytes} {freePages : List Nat}
    (hs : SoundTree s' root tr) (hl : tr.Linkable) (hm : Lists tr.cells m)
    (hother : ∀ k e, k ≠ key → c.entry k = some e → ∀ p ∈ (tree k).pages, p ∉ tr.pages ∧ s'.nodes p = s.nodes p)
    (hfree : ∀ p ∈ tr.pages, p ∉ freePages) (hsub : freePages.Sublist c.freePages) (hle : s.numPages ≤ s'.numPages)
    (ht : c'.tables = (c.setTable key e).tables) (hf : c'.freePages = freePages) (hroot : e.rootPage = root)
    (hname : e.name = key) :
    TableTrees s' c' (Function.update maps key (some m)) (Function.update tree key tr) := by
  obtain rfl := hs.root
  subst hf
  have hentry : c'.entry = Function.update c.entry key (some e) := (Catalog.entry_congr ht).trans (Catalog.entry_setTable c key e)
  have hroots : c'.roots = Function.update c.roots key (some tr.root) := by
    rw [Catalog.roots_update hentry, Option.map_some, hroot]
  refine ⟨?_, fun k f hf => ?_, fun k hk => ?_, fun k f hf => ?_⟩
  · rw [hroots]
    refine h.owners.replace hs.tree (fun k hk hsome p hp => ?_) hfree hsub hle hs.stale
    obtain ⟨f, hf⟩ := Option.isSome_iff_exists.1 (Catalog.isSome_roots ▸ hsome)
    exact hother k f hk hf p hp
  · rcases update_eq_some_iff.1 (hentry ▸ hf) with ⟨rfl, he⟩ | ⟨hk, hf⟩
    · obtain rfl := Option.some.inj he
      rw [Function.update_self, Function.update_self, hroot]
      exact ⟨hs, hl, m, rfl, hm⟩
    · obtain ⟨hs', hrest⟩ := h.table k f hf
      rw [Function.update_of_ne hk, Function.update_of_ne hk]
      exact ⟨hs'.of_agree (fun p hp => (hother k f hk hf p hp).2) hle hs.stale, hrest⟩
  · rw [hentry, Function.update_apply] at hk
    split at hk
    · cases hk
    · exact (Function.update_of_ne ‹_› ..).trans (h.absent k hk)
  · rcases update_eq_some_iff.1 (hentry ▸ hf) with ⟨rfl, he⟩ | ⟨-, hf⟩
    · exact Option.some.inj he ▸ hname
    · exact h.named k f hf

/-- The entry of a table changes, but not its root. -/
theorem setEntry (h : TableTrees s c maps tree) (he : c.entry key = some e) {e' : TableMeta} (hroot : e'.rootPage = e.rootPage)
    (hname : e'.name = e.name) : TableTrees s (c.setTable key e') maps tree := by
  obtain ⟨hs, hl, m, hm, hlists⟩ := h.table key e he
  have hmaps : Function.update maps key (some m) = maps := by rw [← hm, Function.update_eq_self]
  have htree : Function.update tree key (tree key) = tree := Function.update_eq_self ..
  have hnew : TableTrees s (c.setTable key e') (Function.update maps key (some m)) (Function.update tree key (tree key)) :=
    h.replace hs hl hlists (fun k f hk hf p hp => ⟨h.other he hk hf hp, rfl⟩)
      (fun p hp => h.owners.notFree key (by rw [Catalog.isSome_roots, he]; rfl) p hp) (.refl _) le_rfl rfl rfl hroot
      (hname.trans (h.named key e he))
  rwa [hmaps, htree] at hnew

/-- A table is dropped, and its pages become free. -/
theorem free (h : TableTrees s c maps tree) (he : c.entry key = some e) {pages : List Nat} (hperm : pages.Perm (tree key).pages)
    (ht : c'.tables = (c.delTable key).tables) (hf : c'.freePages = c.freePages ++ pages) :
    TableTrees s c' (Function.update maps key none) tree := by
  have hentry : c'.entry = Function.update c.entry key none := (Catalog.entry_congr ht).trans (Catalog.entry_delTable c key)
  have hkept : ∀ {k f}, c'.entry k = some f → k ≠ key ∧ c.entry k = some f := fun hk => by
    rcases update_eq_some_iff.1 (hentry ▸ hk) with ⟨-, hn⟩ | hk
    · cases hn
    · exact hk
  refine ⟨?_, fun k f hk => ?_, fun k hk => ?_, fun k f hk => h.named k f (hkept hk).2⟩
  · rw [Catalog.roots_update hentry, hf]
    exact h.owners.freed (by rw [Catalog.isSome_roots, he]; rfl) hperm
  · rw [Function.update_of_ne (hkept hk).1]
    exact h.table k f (hkept hk).2
  · rw [hentry, Function.update_apply] at hk
    rw [Function.update_apply]
    split at hk
    · exact if_pos ‹_›
    · exact (if_neg ‹_›).trans (h.absent k hk)

end TableTrees

/-! ### Statements on the tables of a session -/

/-- The root of a new table: a page that was free, or a new one. -/
theorem PageDb.Sound.does_newRoot {d : PageDb (Option Nat)} {tree : String → Tree} (hd : d.Sound tree) :
    Does (BTree.newRoot d.freePages) d.store (fun root s => SoundTree s root ⟨0, PT.leaf root [] noPage⟩ ∧
      ((∀ p, p ≠ root → s.nodes p = d.store.nodes p) ∧ d.store.numPages ≤ s.numPages) ∧
      root ∉ d.freePages.dropLast ∧ ∀ k, (d.tables k).isSome → root ∉ (tree k).pages) fun _ _ => False := by
  have hfits : ∀ {e}, ¬(BTree.newLeaf [] : PyNode).fits = .error e := fun he => by
    have hok : (BTree.newLeaf [] : PyNode).fits = .ok () := rfl
    cases hok.symm.trans he
  have hleaf : ∀ {s : Store (Option Nat)} {n : Nat}, s.stale = [] → 0 < n → Start (s.set n (BTree.newLeaf [])) n := by
    intro s n hst hn
    refine ⟨by simp [Store.set, hst], ⟨hn, (Nat.lt_succ_self n).trans_le (le_max_right _ _)⟩, ?_⟩
    rw [Store.nodes_set_self, BTree.newLeaf, Node.reread, TreeLink.code_ofCode]
  rw [BTree.newRoot]
  rcases hlast : d.freePages.getLast? with _ | p
  · simp only
    rw [does_bind, does_allocate, does_bind]
    refine does_write_of (fun _ => ?_) fun e he => hfits he
    have hst : d.store.grow.stale = [] := by simp [Store.grow, hd.stale]
    refine ⟨(hleaf hst hd.pos).sound, ⟨fun p hp => ?_, ?_⟩, ?_, fun k hk hp => ?_⟩
    · exact (Store.nodes_set_other hp).trans (Function.update_of_ne hp ..)
    · exact (Nat.le_succ _).trans (le_max_left _ _)
    · rw [List.getLast?_eq_none_iff.1 hlast]
      exact List.not_mem_nil
    · exact absurd (hd.lt hk hp).2 (lt_irrefl _)
  · obtain ⟨free, hfree⟩ := List.getLast?_eq_some_iff.1 hlast
    have hmem : p ∈ d.freePages := by simp [hfree]
    have hnd := hd.nodup
    rw [hfree, List.nodup_append] at hnd
    simp only
    rw [does_bind, does_pure, does_bind]
    refine does_write_of (fun _ => ?_) fun e he => hfits he
    refine ⟨(hleaf hd.stale (hd.free p hmem).1).sound, ⟨fun q hq => Store.nodes_set_other hq, le_max_left _ _⟩, ?_,
      fun k hk hp => ?_⟩
    · rw [hfree, List.dropLast_concat]
      exact fun hp => hnd.2.2 p hp p (by simp) rfl
    · exact hd.notFree k hk p hp hmem

/-- A new root is not written on page 0. -/
theorem content_newRoot {t t' : PyTree} {free : List Nat} (h : t.Reads t.store) (hfree : ∀ p ∈ free, 0 < p) {root : Nat}
    (hx : (BTree.newRoot free).exec t = .ok root t') : t'.pager.content 0 = t.pager.content 0 := by
  have hwrite : ∀ {u : PyTree} {n : Nat}, u.pager.Live → u.pager.Clean → 0 < n →
      Exec.Post (TreeM.exec do writeNode n (BTree.newLeaf []); return n) u (fun _ u' => u'.pager.content 0 = u.pager.content 0)
        fun _ _ => True := by
    intro u n hl hc hn
    refine TreeM.post_bind.2 ?_
    rw [Exec.Post, writeNode, TreeM.exec, PyTree.write]
    cases (BTree.newLeaf [] : PyNode).toBytes with
    | error e => trivial
    | ok data =>
      cases hw : u.pager.write n data with
      | error e => simp only [hw]
      | ok p =>
        have hclean : (u.pager.newImage (padTo pageSize data)).2.Clean := hc
        simp only [hw]
        exact (hl.write hw).1.content_other hclean hn.ne
  have hpost : Exec.Post (BTree.newRoot free).exec t (fun _ u => u.pager.content 0 = t.pager.content 0) fun _ _ => True := by
    rw [BTree.newRoot]
    cases hlast : free.getLast? with
    | some p =>
      exact TreeM.post_bind.2 (hwrite h.live h.clean (hfree p (List.mem_of_getLast? hlast)))
    | none =>
      obtain ⟨hs, hl⟩ := h.live.allocate
      have hgrown : Pager.Clean { t.pager with numPages := t.pager.numPages + 1 } := h.clean
      have hwritten := hwrite (u := { t with pager := t.pager.allocate.2 }) hl (hs.clean hgrown) h.live.numPages_pos
      refine TreeM.post_bind.2 (hwritten.mono (fun _ u hu => hu.trans ?_) fun _ _ _ => trivial)
      exact hs.content_other hgrown h.live.numPages_pos.ne
  exact hpost.of_ok hx

namespace TableTrees

variable {t t' : PyTree} {c : Catalog} {maps : TableMaps} {tree : String → Tree} {key : String} {e : TableMeta}

/-- A call on the tree of one table. -/
theorem call (h : TableTrees t.store c maps tree) (hr : t.Reads t.store) (he : c.entry key = some e) {m : Int → Option Bytes}
    (hm : maps key = some m) {call : Call} (hc : call.Legal) (hlast : ¬call.SplitsLast t e.rootPage) {r : Reply} {root : Nat}
    (hx : t.call e.rootPage call = some (r, t', root)) :
    t'.Reads t'.store ∧ ∃ tree', ∀ e' : TableMeta, e'.rootPage = root → e'.name = e.name →
      TableTrees t'.store (c.setTable key e') (Function.update maps key (some (call.apply m))) tree' := by
  obtain ⟨hs, hl, m', hm', hlists⟩ := h.table key e he
  obtain rfl : m' = m := Option.some.inj (hm'.symm.trans hm)
  have hh : Holds t e.rootPage (tree key) := ⟨hr, hs⟩
  obtain ⟨-, tr, hh', hlists', hmakes⟩ := hh.call_makes hl hlists hc hx
  obtain rfl := hh'.sound.root
  have hmoved := (hh.call_left hl hc hx).moved hh'.sound.tree
  refine ⟨hh'.reads, _, fun e' he' hname => h.replace hh'.sound (hh.linkable hl hmakes hlast) hlists' (fun k f hk hf p hp => ?_)
    (fun p hp hfree => ?_) (.refl _) hmoved.numPages rfl rfl he' (hname.trans (h.named key e he))⟩
  · have hout := h.other he hk hf hp
    have hlt := (h.pages_lt hf hp).2
    refine ⟨fun hpt => ?_, hmoved.frame p hlt hout⟩
    rcases hmoved.pages p hpt with hin | hnew
    · exact hout hin
    · exact absurd hlt (not_lt.2 hnew)
  · rcases hmoved.pages p hp with hin | hnew
    · exact h.owners.notFree key (by rw [Catalog.isSome_roots, he]; rfl) p hin hfree
    · exact absurd (h.owners.free p hfree).2 (not_lt.2 hnew)

/-- The root of a new table is written; the table is there before, or not. -/
theorem newRoot (h : TableTrees t.store c maps tree) (hr : t.Reads t.store) {root : Nat}
    (hx : (BTree.newRoot c.freePages).exec t = .ok root t') :
    t'.Reads t'.store ∧ TableTrees t'.store { c with freePages := c.freePages.dropLast } maps tree ∧
      ∀ e, c.entry e.name = none → e.rootPage = root → ∃ tree', TableTrees t'.store
        (Catalog.setTable { c with freePages := c.freePages.dropLast } e.name e)
        (Function.update maps e.name (some fun _ => none)) tree' := by
  have hdoes := h.owners.does_newRoot
  obtain ⟨s, hrun, hr'⟩ := hr.run_ok hdoes (fun _ he => he) hx
  obtain ⟨hs, ⟨hframe, hle⟩, hfree, hout⟩ := hdoes.of_ok hrun
  obtain rfl := hr'.eq_store hs.stale
  have hnodes : ∀ k f, c.entry k = some f → ∀ p ∈ (tree k).pages, t'.store.nodes p = t.store.nodes p := by
    intro k f hf p hp
    refine hframe p fun hpr => ?_
    exact hout k (by change (c.roots k).isSome; rw [Catalog.isSome_roots, hf]; rfl) (hpr ▸ hp)
  refine ⟨hr', (h.frame hnodes hle hs.stale).of_tables rfl (List.dropLast_sublist _), fun e hkey he => ?_⟩
  refine ⟨_, h.replace hs (by simp [Tree.Linkable]) (by simp [PyTree.Lists, Tree.cells])
    (fun k f hk hf p hp => ⟨?_, hnodes k f hf p hp⟩) (fun p hp => ?_) (List.dropLast_sublist _) hle rfl rfl he rfl⟩
  · intro hpr
    obtain rfl : p = root := by simpa [Tree.pages, PT.pagesL] using hpr
    exact hout k (by change (c.roots k).isSome; rw [Catalog.isSome_roots, hf]; rfl) hp
  · obtain rfl : p = root := by simpa [Tree.pages, PT.pagesL] using hp
    exact hfree

/-- The pages of the tree of a table. -/
theorem collect (h : TableTrees t.store c maps tree) (hr : t.Reads t.store) (he : c.entry key = some e) :
    ∃ pages t', (BTree.collectTreePages (t.pager.numPages + 1) [] [e.rootPage]).exec t = .ok pages t' ∧ t'.Reads t'.store ∧
      t'.store = t.store ∧ ((pages.insert e.rootPage).insertionSort (· ≥ ·)).Perm (tree key).pages := by
  obtain ⟨hs, -⟩ := h.table key e he
  have ht := hs.tree
  have hlen := ht.length_pages_le
  have hpages : (tree key).2.pages = (tree key).pages := (tree key).pages_eq.symm
  have hcollect := @does_collect (Option Nat) _ t.store (t.store.numPages + 1) [] [tree key] rfl
    (by simpa [PT.nodesL] using ht.good.stored) (by simpa [PT.pagesL] using ht.good.range)
    (by simpa [PT.pagesL] using ht.good.nodup) (by simpa [hpages] using Nat.lt_succ_of_le hlen)
  rw [List.map_singleton, hs.root] at hcollect
  obtain ⟨pages, t', s, hx, ⟨rfl, hperm⟩, hr'⟩ := hr.exec_total hcollect
  have hstore := hr'.eq_store rfl
  simp only [List.nil_append, List.flatMap_cons, List.flatMap_nil, List.append_nil, hpages] at hperm
  refine ⟨pages, t', hx, hstore ▸ hr', hstore.symm, (List.perm_insertionSort _ _).trans ?_⟩
  rw [List.insert_of_mem (hperm.mem_iff.2 (hs.root ▸ (tree key).root_mem_pages))]
  exact hperm

/-- Every table shows its map. -/
theorem refines (h : TableTrees t.store c maps tree) (hr : t.Reads t.store) (he : c.entry key = some e) :
    ∃ m, maps key = some m ∧ Refines t e.rootPage m := by
  obtain ⟨hs, hl, m, hm, hlists⟩ := h.table key e he
  exact ⟨m, hm, Holds.refines ⟨hr, hs⟩ hl hlists⟩

end TableTrees

end LeafDb
