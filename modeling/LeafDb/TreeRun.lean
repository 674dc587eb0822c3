import LeafDb.TreeOps

/-!
# Runs of the operations on a tree

`Tree.put`, `Tree.replace` and `Tree.erase` are `insert`, the loop of `upsert` and `delete` on whole trees as
values. An operation on the pages returns if and only if the function does and its result can be written
(`does_insert_tree`, `does_upsert_tree`, `does_delete_tree`), and leaves this result. So what a run of
operations leaves from an empty leaf is known from the functions alone (`Reached`).
-/

namespace LeafDb

variable {ν : Type} [TreeLink ν] {h : Nat} {s s' : Store ν} {key : Int} {value : Bytes}

/-! ### Whole trees as values -/

namespace Tree

/-- `insert`; `n` is the next new page. -/
def put (key : Int) (value : Bytes) (t : Tree) (n : Nat) : Except PyError (Tree × Nat) := do
  let g ← t.2.put key value n
  match g.1 with
  | ([], [a]) => return (⟨t.1, a⟩, g.2)
  | ([k], [a, b]) => return (⟨t.1 + 1, PT.branch g.2 [k] [a, b]⟩, g.2 + 1)
  | _ => .error .attributeError

/-- The loop of `upsert`. -/
def replace (key : Int) (value : Bytes) (t : Tree) : Tree := ⟨t.1, t.2.replace key value⟩

/-- A root without separators gives way to its child. -/
def collapse : {h : Nat} → PT h → Tree
  | 0, t => ⟨0, t⟩
  | h + 1, t =>
    match PNode.keys t, PNode.kids t with
    | [], c :: _ => collapse c
    | _, _ => ⟨h + 1, t⟩

/-- `delete`: the tree, and whether the key was there. -/
def erase (key : Int) (t : Tree) : Except PyError (Tree × Bool) := do
  let r ← t.2.erase key
  return (if r.2 then collapse r.1 else ⟨t.1, r.1⟩, r.2)

/-- Every node of the tree can be written. -/
def Legal (t : Tree) : Prop := t.2.Legal

end Tree

/-- The tree `t'` is in the place of `t`, with these cells. -/
structure Becomes (s : Store ν) (t : Tree) (s' : Store ν) (t' : Tree) (cells : List Cell) : Prop where
  tree : TreeAt s' t'
  moved : Moved s s' t t'
  stale : s'.stale = []
  cells : t'.cells = cells

/-! ### Deletion -/

theorem TreeAt.child {p : Nat} {c : PT h} (ht : TreeAt s ⟨h + 1, PT.branch p [] [c]⟩) : TreeAt s ⟨h, c⟩ :=
  ⟨ht.good.of_branch.1, by simpa [Tree.lastLink, PT.leavesL] using ht.lastLink⟩

theorem does_collapse_eq : {h : Nat} → {t : PT h} → TreeAt s ⟨h, t⟩ → s.stale = [] → (fuel : Nat) → h < fuel →
    Does (BTree.collapse fuel t.page) s (fun r s' => s' = s ∧ r = (Tree.collapse t).root) fun _ _ => False
  | _, _, _, _, 0, hf => absurd hf (Nat.not_lt_zero _)
  | 0, t, ht, hst, fuel + 1, _ => by
    obtain ⟨p, cells, l, rfl⟩ := PT.exists_leaf t
    obtain ⟨-, -, -, hs, hp⟩ := ht.good.of_leaf
    rw [BTree.collapse, PT.page_leaf, does_bind, does_load hst hp hs]
    exact ⟨rfl, rfl⟩
  | h + 1, t, ht, hst, fuel + 1, hf => by
    obtain ⟨p, keys, kids, rfl⟩ := PT.exists_branch t
    obtain ⟨gk, hs, hp, hrange⟩ := ht.good.of_branch
    rw [BTree.collapse, PT.page_branch, does_bind, does_load hst hrange hs]
    rcases keys with _ | ⟨k, keys⟩
    swap
    · exact ⟨rfl, rfl⟩
    obtain ⟨c, rfl⟩ : ∃ c, kids = [c] := List.length_eq_one_iff.1 gk.kids.length_eq
    simp only
    rw [does_bind, does_at (a := c.page) rfl]
    exact does_collapse_eq ht.child hst fuel (by omega)

/-- The child in the place of its parent is the same tree. -/
theorem TreeAt.collapse : {h : Nat} → {t : PT h} → TreeAt s ⟨h, t⟩ → TreeAt s (Tree.collapse t) ∧
    (Tree.collapse t).cells = Tree.cells ⟨h, t⟩ ∧ ∀ p ∈ (Tree.collapse t).pages, p ∈ Tree.pages ⟨h, t⟩
  | 0, _, ht => ⟨ht, rfl, fun _ hp => hp⟩
  | h + 1, t, ht => by
    obtain ⟨p, keys, kids, rfl⟩ := PT.exists_branch t
    rcases keys with _ | ⟨k, keys⟩
    swap
    · exact ⟨ht, rfl, fun _ hp => hp⟩
    obtain ⟨c, rfl⟩ : ∃ c, kids = [c] := List.length_eq_one_iff.1 ht.good.of_branch.1.kids.length_eq
    obtain ⟨ht', hcells, hpages⟩ := ht.child.collapse
    refine ⟨ht', hcells.trans (by simp [Tree.cells]), fun q hq => ?_⟩
    have := hpages q hq
    rw [Tree.pages_eq] at this ⊢
    simp [this]

theorem Tree.collapse_legal : {h : Nat} → {t : PT h} → t.Legal → (Tree.collapse t).Legal
  | 0, _, hl => hl
  | h + 1, t, hl => by
    obtain ⟨p, keys, kids, rfl⟩ := PT.exists_branch t
    rcases keys with _ | ⟨k, keys⟩ <;> rcases kids with _ | ⟨c, kids⟩
    · exact hl
    · exact @collapse_legal h c (hl.legalKids.1.legal c (by simp))
    · exact hl
    · exact hl

theorem Tree.erase_legal {t : Tree} {r : Tree × Bool} (hl : t.Legal) (hr : t.erase key = .ok r) : r.1.Legal := by
  obtain ⟨⟨t', found⟩, hr', hr⟩ := bind_eq_ok.1 hr
  have hl' := (PT.erase_legal hl hr').1
  obtain rfl := Except.ok.inj hr
  rcases found with _ | _
  · exact hl'
  · exact collapse_legal hl'

theorem does_delete_tree {t : Tree} (ht : TreeAt s t) (hst : s.stale = []) (key : Int) :
    Does (BTree.delete s.numPages t.root key) s
      (fun r s' => ∃ t', t'.root = r.1 ∧ Becomes s t s' t' (t.cells.filter fun c => decide (c.1 ≠ key)) ∧
        (r.2 = true ↔ ∃ v, (key, v) ∈ t.cells) ∧ (t.Legal → t.erase key = .ok (t', r.2)))
      fun e _ => Abort e ∧ (t.Legal → Fails (t.erase key)) := by
  obtain ⟨h, t⟩ := t
  rw [BTree.delete, does_bind]
  refine (does_deleteRec ht.good hst ht.height_lt).mono ?_ fun e _ he => ⟨he.1, fun hl => ?_⟩
  swap
  · obtain ⟨e', he'⟩ := he.2 hl
    rw [Tree.erase]
    change Fails ((t.erase key) >>= _)
    rw [he']
    exact ⟨e', rfl⟩
  rintro r s' ⟨t', hdel, herase⟩
  have ht' : TreeAt s' ⟨h, t'⟩ := ⟨hdel.good, hdel.steps.last.trans ht.lastLink⟩
  have heq : Tree.Legal ⟨h, t⟩ → Tree.erase key ⟨h, t⟩ = .ok (if r then Tree.collapse t' else ⟨h, t'⟩, r) := by
    intro hl
    rw [Tree.erase]
    change (t.erase key >>= _) = _
    rw [herase hl]
    rfl
  rcases r with _ | _
  · exact ⟨⟨h, t'⟩, hdel.page, ⟨ht', hdel.steps.moved, hdel.stale, hdel.cells⟩, hdel.found_iff, heq⟩
  · simp only [if_true]
    have hpage : t'.page = Tree.root ⟨h, t⟩ := hdel.page
    rw [does_bind, ← hpage]
    refine (does_collapse_eq ht' hdel.stale _ ht.height_lt).mono ?_ fun _ _ he => he.elim
    rintro _ _ ⟨rfl, rfl⟩
    obtain ⟨ht'', hcells, hpages⟩ := ht'.collapse
    refine ⟨_, rfl, ⟨ht'', ⟨fun p hp => hdel.steps.pages p (hpages p hp), hdel.steps.frame, hdel.steps.numPages⟩, hdel.stale,
      hcells.trans hdel.cells⟩, hdel.found_iff, heq⟩

/-! ### Insertion -/

/-- The root gets a sibling and a parent. -/
theorem becomes_of_split {s' : Store ν} {t c₁ c₂ : PT h} {sep : Int} (ht : TreeAt s ⟨h, t⟩)
    (hg : Good False s' none none [sep] [c₁, c₂]) (hs : Steps s s' [t] [c₁, c₂]) (hst : s'.stale = []) :
    Becomes s ⟨h, t⟩ (s'.grow.set s'.numPages (.internal [sep] [c₁.page, c₂.page]))
      ⟨h + 1, PT.branch s'.numPages [sep] [c₁, c₂]⟩ (PT.cellsL [c₁, c₂]) := by
  have hfresh : s'.numPages ∉ PT.pagesL [c₁, c₂] := fun hm => lt_irrefl _ (hg.range _ hm).2
  have hnodes : ∀ m, m ≠ s'.numPages →
      (s'.grow.set s'.numPages (.internal [sep] [c₁.page, c₂.page])).nodes m = s'.nodes m := by
    intro m hm
    rw [Store.nodes_set_other hm]
    simp [Store.grow, hm]
  have hpages : (s'.grow.set s'.numPages (.internal [sep] [c₁.page, c₂.page])).numPages = s'.numPages + 1 := by
    simp [Store.set, Store.grow]
  have hpos : 0 < s'.numPages := (Nat.zero_le _).trans_lt (hg.range c₁.page (by simp [PT.pagesL, PT.page_mem_pages])).2
  have hgood := (hg.of_agree (fun m hm => hnodes m (ne_of_mem_of_not_mem hm hfresh)) (by omega)).branch hfresh
    (by simp [Node.reread]) ⟨hpos, by omega⟩
  refine ⟨⟨hgood, ?_⟩, ⟨fun p hp => ?_, fun p hlt hp => ?_, ?_⟩, by simp [Store.set, Store.grow, hst], by simp [Tree.cells]⟩
  · have hl := hs.last.trans ht.lastLink
    simpa [Tree.lastLink, PT.leavesL] using hl
  · simp only [Tree.pages, PT.pagesL, List.flatMap_cons, List.flatMap_nil, List.append_nil, PT.pages_branch, List.mem_cons] at hp
    rcases hp with rfl | hp
    · exact .inr hs.numPages
    · exact hs.pages p (by simpa [PT.pagesL] using hp)
  · rw [hnodes p (hlt.trans_le hs.numPages).ne]
    exact hs.frame p hlt hp
  · rw [hpages]
    exact hs.numPages.trans (Nat.le_succ _)

/-- The result of an insertion has the cells of the tree and the new one. -/
def Adds (key : Int) (value : Bytes) (cells cells' : List Cell) : Prop :=
  (∀ v, (key, v) ∉ cells) ∧ ∀ c, c ∈ cells' ↔ c = (key, value) ∨ c ∈ cells

theorem does_insert_tree {t : Tree} (ht : TreeAt s t) (hst : s.stale = []) (key : Int) (value : Bytes) :
    Does (BTree.insert s.numPages t.root key value) s
      (fun r s' => ∃ t' : Tree, t'.root = r ∧ Becomes s t s' t' t'.cells ∧ Adds key value t.cells t'.cells ∧
        value.length ≤ maxValueSize ∧
        (Insertable t.2 key value → t.put key value s.numPages = .ok (t', s'.numPages) ∧ t'.Legal))
      fun e s' => InsertError s key t.2 e s' ∧
        (Insertable t.2 key value → ∀ r, t.put key value s.numPages = .ok r → ¬r.1.Legal) := by
  obtain ⟨h, t⟩ := t
  rw [BTree.insert]
  split
  · rename_i hlt
    exact ⟨.of_abort ⟨by simp, by simp⟩, fun hi => absurd hlt (not_lt.2 hi.value)⟩
  rename_i hle
  rw [does_bind]
  refine (does_insertRec ht.good hst ⟨by simp, by simp⟩ ht.height_lt).mono ?_ fun e _ he => ⟨he.1, fun hi r hr hl => ?_⟩
  swap
  · obtain ⟨g, hg, hr⟩ := bind_eq_ok.1 hr
    refine he.2 hi g hg fun d hd => ?_
    split at hr
    · rename_i a hga
      obtain rfl := Except.ok.inj hr
      rw [hga] at hd
      rw [List.mem_singleton.1 hd]
      exact hl
    · rename_i k a b hga
      obtain rfl := Except.ok.inj hr
      rw [hga] at hd
      exact hl.legalKids.1.legal d hd
    · cases hr
  rintro r s' ⟨ds, hins, hputs⟩
  rcases r with _ | ⟨sep, right⟩
  · obtain ⟨t', rfl, hpage⟩ : ∃ t', ds = [t'] ∧ t'.page = t.page := by
      have := hins.pages
      simpa [List.map_eq_singleton_iff] using this
    refine ⟨⟨h, t'⟩, hpage, ⟨⟨hins.good, hins.steps.last.trans ht.lastLink⟩, hins.steps.moved, hins.stale, rfl⟩,
      ⟨hins.fresh, hins.cells⟩, not_lt.1 hle, fun hi => ?_⟩
    obtain ⟨hp, hl⟩ := hputs hi
    refine ⟨?_, hl t' (by simp)⟩
    rw [Tree.put, hp]
    rfl
  · obtain ⟨c₁, c₂, rfl, hc₁, hc₂⟩ : ∃ c₁ c₂, ds = [c₁, c₂] ∧ c₁.page = t.page ∧ c₂.page = right := by
      have := hins.pages
      rcases ds with _ | ⟨c₁, _ | ⟨c₂, _ | ⟨_, _⟩⟩⟩ <;> simp_all
    have hput : Insertable t key value → Tree.put key value ⟨h, t⟩ s.numPages =
        .ok (⟨h + 1, PT.branch s'.numPages [sep] [c₁, c₂]⟩, s'.numPages + 1) := by
      intro hi
      rw [Tree.put, (hputs hi).1]
      rfl
    rw [does_bind, does_allocate, does_bind]
    refine does_write_of (fun hf => ?_) fun e he => ⟨.of_abort (fits_error he), fun hi r hr hl => ?_⟩
    swap
    · rw [hput hi] at hr
      obtain rfl := Except.ok.inj hr
      have := PT.Fits.node_fits (ν := ν) (PT.Legal.fits (t := PT.branch s'.numPages [sep] [c₁, c₂]) hl)
      rw [PT.node_branch, List.map_cons, List.map_cons, List.map_nil, hc₁, hc₂] at this
      cases this.symm.trans he
    have hb := becomes_of_split ht hins.good hins.steps hins.stale
    rw [hc₁, hc₂] at hb
    refine ⟨⟨h + 1, PT.branch s'.numPages [sep] [c₁, c₂]⟩, rfl, ⟨hb.tree, hb.moved, hb.stale, rfl⟩, ?_, not_lt.1 hle, fun hi => ?_⟩
    · rw [hb.cells]
      exact ⟨hins.fresh, hins.cells⟩
    · have hn : (s'.grow.set s'.numPages (.internal [sep] [Tree.root ⟨h, t⟩, right])).numPages = s'.numPages + 1 := by
        simp [Store.set, Store.grow]
      refine ⟨by rw [hn, hput hi], ?_⟩
      have hf' : (PT.branch s'.numPages [sep] [c₁, c₂]).Fits := by
        refine PT.fits_of_branch (ν := ν) ?_
        rw [PT.node_branch, List.map_cons, List.map_cons, List.map_nil, hc₁, hc₂]
        exact hf
      exact ⟨hf', rfl, (hputs hi).2⟩

/-! ### Overwriting -/

theorem key_mem_child {ca cb : List (PT h)} {c : PT h} (hca : ∀ d ∈ PT.cellsL ca, d.1 < key)
    (hcb : ∀ d ∈ PT.cellsL cb, key < d.1) {v : Bytes} : (key, v) ∈ PT.cellsL (ca ++ [c] ++ cb) ↔ (key, v) ∈ PT.cellsL [c] := by
  simp only [PT.cellsL_append, List.mem_append]
  refine ⟨fun hv => ?_, fun hv => .inl (.inr hv)⟩
  rcases hv with (hv | hv) | hv
  · exact absurd (hca _ hv) (lt_irrefl _)
  · exact hv
  · exact absurd (hcb _ hv) (lt_irrefl _)

/-- The insertion of a key that is there fails and changes nothing. -/
theorem does_insertRec_present : {h : Nat} → {s : Store ν} → {lo hi : Option Int} → {t : PT h} →
    Good False s lo hi [] [t] → s.stale = [] → (∃ v, (key, v) ∈ PT.cellsL [t]) → {fuel : Nat} → h < fuel →
    Does (BTree.insertRec fuel t.page key value) s (fun _ _ => False) fun e s' => e = .raised (.duplicateKey key) ∧ s' = s
  | 0, s, lo, hi, t, g, hst, hkey, fuel, hf => by
    obtain ⟨p, cells, l, rfl⟩ := PT.exists_leaf t
    obtain ⟨fuel, rfl⟩ := Nat.exists_eq_add_of_lt hf
    obtain ⟨ha, -, -, hs, hp⟩ := g.of_leaf
    obtain ⟨L, R, rfl, hi', hL, hR⟩ := exists_around ha key
    rw [Nat.zero_add, BTree.insertRec, PT.page_leaf, does_bind, does_load hst hp hs]
    simp only
    rw [hi', List.getElem?_append_right le_rfl, Nat.sub_self]
    rcases hR with ⟨v, R', rfl, -⟩ | hR
    · rw [if_pos (by simp), does_fail]
      exact ⟨rfl, rfl⟩
    · obtain ⟨v, hv⟩ := hkey
      rw [PT.cellsL_leaf, List.mem_append] at hv
      exact hv.elim (fun hv => absurd (hL _ hv) (lt_irrefl _)) fun hv => absurd (hR _ hv) (lt_irrefl _)
  | h + 1, s, lo, hi, t, g, hst, hkey, fuel, hf => by
    obtain ⟨p, keys, kids, rfl⟩ := PT.exists_branch t
    obtain ⟨fuel, rfl⟩ : ∃ f, fuel = f + 1 := ⟨fuel - 1, by omega⟩
    obtain ⟨gk, hs, hp, hrange⟩ := g.of_branch
    obtain ⟨ka, kb, ca, c, cb, hkeys, hkids, hla, hlb, hbis, hka, hkb, hca, hcb⟩ := gk.child key
    have hc : (kids.map PT.page)[ka.length]? = some c.page := by simp [hkids, hla]
    rw [PT.page_branch, BTree.insertRec, does_bind, does_load hst hrange hs]
    simp only
    rw [hbis, does_bind, does_at hc, does_bind]
    rw [hkeys, hkids] at gk
    obtain ⟨v, hv⟩ := hkey
    rw [PT.cellsL_branch, hkids, key_mem_child hca hcb] at hv
    exact (does_insertRec_present (gk.segment hla hlb).1 hst ⟨v, hv⟩ (by omega)).mono (fun _ _ hn => hn.elim) fun _ _ he => he

theorem does_insert_present {t : Tree} (ht : TreeAt s t) (hst : s.stale = []) (hkey : ∃ v, (key, v) ∈ t.cells)
    (hv : value.length ≤ maxValueSize) : Does (BTree.insert s.numPages t.root key value) s (fun _ _ => False)
      fun e s' => e = .raised (.duplicateKey key) ∧ s' = s := by
  rw [BTree.insert, if_neg (not_lt.2 hv), does_bind]
  exact (does_insertRec_present ht.good hst hkey ht.height_lt).mono (fun _ _ hn => hn.elim) fun _ _ he => he

theorem upsert_of_present {t : Tree} (ht : TreeAt s t) (hst : s.stale = []) (hkey : ∃ v, (key, v) ∈ t.cells)
    (hv : value.length ≤ maxValueSize) :
    BTree.upsert s.numPages t.root key value s = (BTree.overwrite t.root key value s.numPages t.root).run s := by
  have hins := does_insert_present ht hst hkey hv
  rcases hrun : (BTree.insert s.numPages t.root key value).run s with ⟨r, s'⟩ | ⟨e, s'⟩
  · exact (hins.of_ok hrun).elim
  · obtain ⟨rfl, rfl⟩ := hins.of_error hrun
    rw [BTree.upsert, hrun]

theorem upsert_of_absent {t : Tree} (ht : TreeAt s t) (hst : s.stale = []) (value : Bytes) (hkey : ∀ v, (key, v) ∉ t.cells) :
    BTree.upsert s.numPages t.root key value s = (BTree.insert s.numPages t.root key value).run s := by
  rcases hrun : (BTree.insert s.numPages t.root key value).run s with ⟨r, s'⟩ | ⟨e, s'⟩
  · rw [BTree.upsert, hrun]
  · rw [BTree.upsert, hrun]
    split
    · rename_i h
      cases h
      obtain ⟨-, -, hdup⟩ := (does_insert_tree ht hst key value).of_error hrun |>.1
      obtain ⟨-, -, v, hv⟩ := hdup _ rfl
      exact absurd hv (hkey v)
    · rfl

/-- `upsert` of a key that is there gives it the new value, or fails because the leaf does not fit its page. -/
theorem does_upsert_present {t : Tree} (ht : TreeAt s t) (hst : s.stale = []) (hkey : ∃ v, (key, v) ∈ t.cells)
    (hv : value.length ≤ maxValueSize) :
    Exec.Post (BTree.upsert s.numPages t.root key value) s
      (fun r s' => r = t.root ∧ (t.replace key value).root = t.root ∧
        Becomes s t s' (t.replace key value) (setValue key value t.cells) ∧ s'.numPages = s.numPages ∧
        (t.Legal → (t.replace key value).Legal))
      fun e _ => Abort e ∧ (t.Legal → ¬(t.replace key value).Legal) := by
  rw [Exec.Post, upsert_of_present ht hst hkey hv]
  obtain ⟨h, t⟩ := t
  refine (does_overwrite ht.good hst hkey ht.height_lt).mono ?_ fun _ _ he => ⟨he.1, fun hl => he.2 hl hv⟩
  rintro r s' ⟨rfl, t', rfl, hpage, hgood, hsteps, hst', hcells, hnum, hlegal⟩
  exact ⟨rfl, hpage, ⟨⟨hgood, hsteps.last.trans ht.lastLink⟩, hsteps.moved, hst', hcells⟩, hnum, fun hl => hlegal hl hv⟩

/-! ### The operations without the cells -/

theorem Becomes.left {s' : Store ν} {t t' : Tree} {cells : List Cell} (hb : Becomes s t s' t' cells) : Left s t t'.root s' :=
  ⟨t', rfl, hb.tree, hb.moved, hb.stale⟩

theorem does_insert {t : Tree} (ht : TreeAt s t) (hst : s.stale = []) (key : Int) (value : Bytes) :
    Does (BTree.insert s.numPages t.root key value) s (Left s t) (InsertError s key t.2) := by
  refine (does_insert_tree ht hst key value).mono ?_ fun _ _ he => he.1
  rintro r s' ⟨t', rfl, hb, -⟩
  exact hb.left

theorem does_upsert {t : Tree} (ht : TreeAt s t) (hst : s.stale = []) (key : Int) (value : Bytes) :
    Exec.Post (BTree.upsert s.numPages t.root key value) s (Left s t) fun e _ => Abort e := by
  have hins := does_insert ht hst key value
  rw [Exec.Post]
  rcases hrun : (BTree.insert s.numPages t.root key value).run s with ⟨r, s'⟩ | ⟨e, s'⟩
  · have hup : BTree.upsert s.numPages t.root key value s = .ok r s' := by rw [BTree.upsert, hrun]
    rw [hup]
    exact hins.of_ok hrun
  obtain ⟨hne, hdiv, hdup⟩ := hins.of_error hrun
  rcases e with _ | e
  · exact absurd rfl hne
  by_cases he : ∃ k, e = .duplicateKey k
  · obtain ⟨k, rfl⟩ := he
    obtain ⟨rfl, rfl, hkey⟩ := hdup k rfl
    have hup : BTree.upsert s'.numPages t.root k value s' = (BTree.overwrite t.root k value s'.numPages t.root).run s' := by
      rw [BTree.upsert, hrun]
    rw [hup]
    obtain ⟨h, t⟩ := t
    refine (does_overwrite ht.good hst hkey ht.height_lt).mono ?_ fun _ _ he => he.1
    rintro r s'' ⟨rfl, t', hover⟩
    exact ⟨⟨h, t'⟩, hover.page, ⟨hover.good, hover.steps.last.trans ht.lastLink⟩, hover.steps.moved, hover.stale⟩
  · have hup : BTree.upsert s.numPages t.root key value s = .error (.raised e) s' := by
      rw [BTree.upsert, hrun]
      split
      · rename_i h
        cases h
        exact absurd ⟨_, rfl⟩ he
      · rfl
    rw [hup]
    exact ⟨hne, hdiv, fun k hk => he ⟨k, Failure.raised.inj hk⟩⟩

theorem does_delete {t : Tree} (ht : TreeAt s t) (hst : s.stale = []) (key : Int) :
    Does (BTree.delete s.numPages t.root key) s (fun r s' => Left s t r.1 s') fun e _ => Abort e := by
  refine (does_delete_tree ht hst key).mono ?_ fun _ _ he => he.1
  rintro r s' ⟨t', hroot, hb, -⟩
  rw [← hroot]
  exact hb.left

/-! ### Searching -/

theorem leafLookup_eq_some_iff {cells : List Cell} (ha : Ascending cells) (key : Int) (v : Bytes) :
    leafLookup cells key = some v ↔ (key, v) ∈ cells := by
  obtain ⟨L, R, rfl, hi', hL, hR⟩ := exists_around ha key
  have hnL : (key, v) ∉ L := fun hv => lt_irrefl _ (hL _ hv)
  rw [leafLookup, hi', List.getElem?_append_right le_rfl, Nat.sub_self]
  rcases hR with ⟨w, R', rfl, hR'⟩ | hR
  · have hnR : (key, v) ∉ R' := fun hv => lt_irrefl _ (hR' _ hv)
    simp [hnL, hnR, eq_comm]
  · have hnR : (key, v) ∉ R := fun hv => lt_irrefl _ (hR _ hv)
    rcases R with _ | ⟨c, R⟩
    · simp [hnL]
    · have := hR c (by simp)
      simp [hnL, hnR, this.ne']

theorem search_good : {h : Nat} → {s : Store ν} → {lo hi : Option Int} → {t : PT h} → Good False s lo hi [] [t] →
    {fuel : Nat} → h < fuel → ∃ r, search s.nodes fuel t.page key = .ok r ∧ ∀ v, r = some v ↔ (key, v) ∈ PT.cellsL [t]
  | 0, s, lo, hi, t, g, fuel, hf => by
    obtain ⟨p, cells, l, rfl⟩ := PT.exists_leaf t
    obtain ⟨fuel, rfl⟩ := Nat.exists_eq_add_of_lt hf
    obtain ⟨ha, -, -, hs, -⟩ := g.of_leaf
    rw [Nat.zero_add, search, PT.page_leaf, hs]
    exact ⟨_, rfl, fun v => by rw [leafLookup_eq_some_iff ha, PT.cellsL_leaf]⟩
  | h + 1, s, lo, hi, t, g, fuel, hf => by
    obtain ⟨p, keys, kids, rfl⟩ := PT.exists_branch t
    obtain ⟨fuel, rfl⟩ : ∃ f, fuel = f + 1 := ⟨fuel - 1, by omega⟩
    obtain ⟨gk, hs, hp, hrange⟩ := g.of_branch
    obtain ⟨ka, kb, ca, c, cb, hkeys, hkids, hla, hlb, hbis, hka, hkb, hca, hcb⟩ := gk.child key
    have hc : (kids.map PT.page)[ka.length]? = some c.page := by simp [hkids, hla]
    rw [hkeys, hkids] at gk
    obtain ⟨r, hr, hv⟩ := search_good (gk.segment hla hlb).1 (show h < fuel by omega)
    refine ⟨r, ?_, fun v => ?_⟩
    · rw [search, PT.page_branch, hs]
      simp only [bind, Except.bind, childAt, hbis, hc]
      exact hr
    · rw [hv, PT.cellsL_branch, hkids, key_mem_child hca hcb]

/-- `search` finds the value of a key, if the tree has the key. -/
theorem TreeAt.search {t : Tree} (ht : TreeAt s t) (key : Int) :
    ∃ r, LeafDb.search s.nodes s.numPages t.root key = .ok r ∧ ∀ v, r = some v ↔ (key, v) ∈ t.cells := by
  obtain ⟨h, t⟩ := t
  exact search_good ht.good ht.height_lt

end LeafDb
