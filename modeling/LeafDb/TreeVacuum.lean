import LeafDb.Base.Result
import LeafDb.TreeCheckSound
import LeafDb.TreeOps

/-!
# `bulk_load` and `vacuum`

`bulk_load` writes the leaves one after the other, links them, and puts one level of parents after the other
on top, with 32 children each. `does_parents` says that a level of parents keeps a list of stored trees a
list of stored trees; nothing is written on a page that was there before.
-/

namespace LeafDb

namespace BTree

variable {ν : Type} [TreeLink ν]

/-- The first loop of `range_scan` from the start. -/
def firstLeaf : Nat → Nat → TreeM ν Nat
  | 0, _ => .fail .diverges
  | fuel + 1, n => do
    match ← loadNode n with
    | .leaf _ _ => return n
    | .internal _ children => firstLeaf fuel (← at? children 0)

/-- The second loop of `range_scan` without bounds. -/
def chainCells : Nat → Nat → TreeM ν (List Cell)
  | 0, _ => .fail .diverges
  | fuel + 1, n => do
    match ← loadNode n with
    | .internal _ _ => .fail .attributeError
    | .leaf cells next =>
      match Link.follow next with
      | none => return cells
      | some n' => return cells ++ (← chainCells fuel n')

/-- `list(self.items(root))`. -/
def items (fuel root : Nat) : TreeM ν (List Cell) := do chainCells fuel (← firstLeaf fuel root)

/-- `a <= b` on tuples of a key and a byte string. -/
def pairLe (a b : Cell) : Prop := a.1 < b.1 ∨ a.1 = b.1 ∧ a.2.map UInt8.toNat ≤ b.2.map UInt8.toNat

instance : DecidableRel pairLe := fun _ _ => inferInstanceAs (Decidable (_ ∨ _))

/-- `sorted(pairs)`. -/
def sortPairs (pairs : List Cell) : List Cell := pairs.insertionSort pairLe

/-- A `Leaf` that links to no page. -/
def newLeaf (cells : List Cell) : Node ν := .leaf cells (TreeLink.ofCode noPage)

/-- The leaves of `bulk_load`; `cur` are the cells of the current one. -/
def leafGroups : List Cell → List Cell → Except PyError (List (List Cell))
  | cur, [] => .ok (if cur = [] then [] else [cur])
  | cur, c :: cs => do
    let probe ← (newLeaf (ν := ν) (cur ++ [c])).serializedSize
    if pageSize - 16 < probe then
      if cur = [] then .error .valueError
      else return (cur ++ [c]) :: (← leafGroups [] cs)
    else leafGroups (cur ++ [c]) cs

/-- A page with the first key under it. -/
abbrev Entry := Nat × Int

def writeLeaves : List (List Cell) → TreeM ν (List Entry)
  | [] => return []
  | cells :: rest => do
    let p ← allocatePage
    writeNode p (newLeaf cells)
    let first ← at? cells 0
    return (p, first.1) :: (← writeLeaves rest)

/-- `nxt`: the page of the next leaf, if there is one. -/
def nextLink : List Entry → ν
  | [] => TreeLink.ofCode noPage
  | (q, _) :: _ => TreeLink.ofPage q

def linkLeaves : List Entry → TreeM ν Unit
  | [] => return ()
  | (p, _) :: rest => do
    match ← loadNode p with
    | .internal _ _ => .fail .attributeError
    | .leaf cells _ =>
      let nd := Node.leaf cells (nextLink rest)
      mutate p nd
      writeNode p nd
      linkLeaves rest

/-- `level[i:i + fanout]` for each `i` in steps of `fanout`. -/
def groups : Nat → List Entry → List (List Entry)
  | 0, _ => []
  | _, [] => []
  | fuel + 1, e :: level => (e :: level).take 32 :: groups fuel ((e :: level).drop 32)

/-- The parents of the groups. -/
def parents : List (List Entry) → TreeM ν (List Entry)
  | [] => return []
  | group :: rest => do
    let p ← allocatePage
    writeNode p (.internal (group.tail.map Prod.snd) (group.map Prod.fst))
    let first ← at? group 0
    return (p, first.2) :: (← parents rest)

/-- The loop over the levels. -/
def buildLevels : Nat → List Entry → TreeM ν Nat
  | 0, _ => .fail .diverges
  | fuel + 1, level =>
    if 1 < level.length then do buildLevels fuel (← parents (groups level.length level))
    else do return (← at? level 0).1

/-- `bulk_load`. -/
def bulkLoad (fuel : Nat) (pairs : List Cell) : TreeM ν Nat := do
  let data := sortPairs pairs
  if data = [] then
    let page ← allocatePage
    writeNode page (newLeaf [])
    return page
  else
    let pages ← writeLeaves (← TreeM.lift (leafGroups (ν := ν) [] data))
    linkLeaves pages
    buildLevels fuel pages

/-- `vacuum`: the new root and the number of cells. -/
def vacuum (fuel root : Nat) : TreeM ν (Nat × Nat) := do
  let data ← items fuel root
  let newRoot ← bulkLoad (data.length + 1) data
  return (newRoot, data.length)

end BTree

variable {ν : Type} [TreeLink ν] {h : Nat} {s : Store ν} {lo hi : Option Int}

/-! ### Pages that can be written -/

/-- Cells that a page holds unless they are too long. -/
structure LeafCells (cells : List Cell) : Prop where
  cell : ∀ c ∈ cells, IsI64 c.1 ∧ c.2.length ≤ maxValueSize
  size : 9 + cellsSize cells < 2 ^ 32

theorem LeafCells.fits_iff {cells : List Cell} {l : Nat} (h : LeafCells cells) (hl : l < 2 ^ 32) :
    (Node.leaf cells (TreeLink.ofCode l) : Node ν).fits = .ok () ↔ 9 + cellsSize cells ≤ pageSize :=
  PT.Packs.node_fits (t := PT.leaf 0 cells l) (PT.packs_leaf.2 ⟨hl, h.cell⟩) h.size

/-- A leaf is written with the link to the next page. -/
theorem lt_of_fits_ofPage {cells : List Cell} {q : Nat} (h : (Node.leaf cells (TreeLink.ofPage q) : Node ν).fits = .ok ()) :
    q < 2 ^ 32 := by
  obtain ⟨hb, -⟩ := toBytes_of_fits h
  unfold Node.toBytes at hb
  split at hb
  · rename_i hp
    rw [← TreeLink.code_ofPage (ν := ν) q]
    exact hp.1
  · cases hb

/-- A parent of a group of pages can be written if their numbers fit. -/
theorem fits_parent {group : List BTree.Entry} (hlen : group.length ≤ 32) (hk : ∀ e ∈ group, IsI64 e.2)
    (hp : ∀ e ∈ group, e.1 < 2 ^ 32) :
    (Node.internal (group.tail.map Prod.snd) (group.map Prod.fst) : Node ν).fits = .ok () := by
  have hpk : (Node.internal (group.tail.map Prod.snd) (group.map Prod.fst) : Node ν).Packable := by
    refine ⟨?_, ?_, fun k hkm => ?_, fun p hpm => ?_⟩
    · rw [List.length_map, List.length_tail]
      omega
    · rw [List.length_map]
      omega
    · obtain ⟨e, he, rfl⟩ := List.mem_map.1 hkm
      exact hk e (List.mem_of_mem_tail he)
    · obtain ⟨e, he, rfl⟩ := List.mem_map.1 hpm
      exact hp e he
  have hsize : (Node.internal (group.tail.map Prod.snd) (group.map Prod.fst) : Node ν).encode.length ≤ pageSize := by
    rw [length_encode_internal, List.length_map, List.length_map, List.length_tail, pageSize]
    omega
  refine fits_of_serializedSize ?_ hsize
  rw [Node.serializedSize, Node.toBytes, if_pos hpk]
  rfl

theorem lt_of_fits_internal {keys : List Int} {children : List Nat} (h : (Node.internal keys children : Node ν).fits = .ok ()) :
    ∀ p ∈ children, p < 2 ^ 32 := by
  obtain ⟨hb, -⟩ := toBytes_of_fits h
  unfold Node.toBytes at hb
  split at hb
  · rename_i hp
    exact hp.2.2.2
  · cases hb

/-! ### Parents -/

/-- What writing on new pages leaves alone. -/
structure Extends (s s' : Store ν) : Prop where
  frame : ∀ p, p < s.numPages → s'.nodes p = s.nodes p
  numPages : s.numPages ≤ s'.numPages
  stale : s'.stale = []

omit [TreeLink ν] in
theorem Extends.trans {s' s'' : Store ν} (h : Extends s s') (h' : Extends s' s'') : Extends s s'' :=
  ⟨fun p hp => (h'.frame p (hp.trans_le h.numPages)).trans (h.frame p hp), h.numPages.trans h'.numPages, h'.stale⟩

theorem extends_new (hst : s.stale = []) (nd : Node ν) : Extends s (s.grow.set s.numPages nd) := by
  refine ⟨fun p hp => ?_, ?_, ?_⟩
  · rw [Store.nodes_set_other hp.ne]
    simp [Store.grow, hp.ne]
  · simp [Store.set, Store.grow]
  · simp [Store.set, Store.grow, hst]

theorem numPages_new (nd : Node ν) : (s.grow.set s.numPages nd).numPages = s.numPages + 1 := by
  simp [Store.set, Store.grow]

theorem Good.extends {s' : Store ν} {ms : List Int} {ds : List (PT h)} (g : Good False s lo hi ms ds) (he : Extends s s') :
    Good False s' lo hi ms ds :=
  g.of_agree (fun p hp => he.frame p (g.range p hp).2) he.numPages

/-- The trees `ds` are a level: their pages and the first keys under them, except the first one. -/
structure Level (s : Store ν) (lo hi : Option Int) (level : List BTree.Entry) (ds : List (PT h)) : Prop where
  good : Good False s lo hi (level.tail.map Prod.snd) ds
  pages : ds.map PT.page = level.map Prod.fst

/-- One parent on a new page. -/
theorem Level.parent {group : List BTree.Entry} {ds : List (PT h)} (hl : Level s lo hi group ds) (hst : s.stale = [])
    (hpos : 0 < s.numPages) :
    Good False (s.grow.set s.numPages (.internal (group.tail.map Prod.snd) (group.map Prod.fst))) lo hi []
      [PT.branch s.numPages (group.tail.map Prod.snd) ds] := by
  refine (hl.good.extends (extends_new hst _)).branch (fun hp => lt_irrefl _ (hl.good.range _ hp).2) ?_
    ⟨hpos, by rw [numPages_new]; exact Nat.lt_succ_self _⟩
  rw [Store.nodes_set_self, hl.pages]
  rfl

/-- The parents are on the next pages, and the numbers of their children fit. -/
structure NewParents (s : Store ν) (gs : List (List BTree.Entry)) (level : List BTree.Entry) (s' : Store ν) : Prop where
  pages : level.map Prod.fst = List.range' s.numPages gs.length
  numPages : s'.numPages = s.numPages + gs.length
  keys : ∀ e ∈ level, ∃ e' ∈ gs.flatten, e'.2 = e.2
  children : ∀ e ∈ gs.flatten, e.1 < 2 ^ 32

/-- The parents of a level are a level. -/
theorem does_parents {gs : List (List BTree.Entry)} {ds : List (PT h)} (hl : Level s lo hi gs.flatten ds) (hst : s.stale = [])
    (hpos : 0 < s.numPages) (hgs : gs ≠ []) (hne : ∀ g ∈ gs, g ≠ []) :
    Does (BTree.parents gs) s (fun level s' => (level.length = gs.length ∧
      level.head?.map Prod.snd = gs.flatten.head?.map Prod.snd ∧ ∃ ds' : List (PT (h + 1)), Level s' lo hi level ds' ∧
        Extends s s' ∧ PT.leavesL ds' = PT.leavesL ds ∧ ∀ p ∈ PT.pagesL ds', p ∈ PT.pagesL ds ∨ s.numPages ≤ p) ∧
          NewParents s gs level s')
      fun e _ => Abort e ∧ ((∀ g ∈ gs, g.length ≤ 32 ∧ ∀ e ∈ g, IsI64 e.2) → ∃ e ∈ gs.flatten, 2 ^ 32 ≤ e.1) := by
  induction gs generalizing s lo ds with
  | nil => exact absurd rfl hgs
  | cons g gs ih =>
    obtain ⟨first, g, rfl⟩ := List.exists_cons_of_ne_nil (hne g (by simp))
    rw [BTree.parents, does_bind, does_allocate, does_bind]
    refine does_write_of (fun hf => ?_) fun e he => ⟨fits_error he, fun hg => ?_⟩
    swap
    · -- a child on a page with too large a number
      obtain ⟨hlen, hk⟩ := hg (first :: g) (by simp)
      by_contra hno
      simp only [not_exists, not_and, not_le] at hno
      have hfits := fits_parent (ν := ν) hlen hk fun e he => hno e (List.mem_flatten.2 ⟨_, List.mem_cons_self, he⟩)
      cases he.symm.trans hfits
    have hchildren : ∀ e ∈ first :: g, e.1 < 2 ^ 32 := fun e he => lt_of_fits_internal hf e.1 (List.mem_map_of_mem he)
    rw [does_bind, does_at (a := first) rfl, does_bind]
    rcases gs with _ | ⟨g', gs⟩
    · -- the last group
      have hl' : Level s lo hi (first :: g) ds := by simpa using hl
      have hgood := hl'.parent hst hpos
      refine ⟨⟨rfl, rfl, [PT.branch s.numPages (g.map Prod.snd) ds], ⟨hgood, rfl⟩, extends_new hst _, ?_, ?_⟩, ⟨rfl,
        numPages_new _, fun e he => ⟨first, by simp, ?_⟩, by simpa using hchildren⟩⟩
      · simp [PT.leavesL]
      · intro p hp
        simp only [PT.pagesL, List.flatMap_cons, List.flatMap_nil, List.append_nil, PT.pages_branch, List.mem_cons] at hp
        rcases hp with rfl | hp
        · exact .inr le_rfl
        · exact .inl hp
      · obtain rfl := List.mem_singleton.1 he
        rfl
    · obtain ⟨next, g', rfl⟩ := List.exists_cons_of_ne_nil (hne g' (by simp))
      have hgood : Good False s lo hi (g.map Prod.snd ++ next.2 :: ((g' ++ gs.flatten).map Prod.snd)) ds := by
        simpa using hl.good
      obtain ⟨g1, g2, hdisj, hchain⟩ := hgood.split
      rw [List.length_map] at g1 g2 hdisj hchain
      have hpages : ds.map PT.page = (first :: g).map Prod.fst ++ (next :: (g' ++ gs.flatten)).map Prod.fst := by
        simpa using hl.pages
      have hlen : g.length + 1 = ((first :: g).map Prod.fst).length := by simp
      have l1 : Level s lo (some next.2) (first :: g) (ds.take (g.length + 1)) :=
        ⟨g1, by rw [List.map_take, hpages, hlen, List.take_left]⟩
      have hca := l1.parent hst hpos
      have he := extends_new hst (.internal ((first :: g).tail.map Prod.snd) ((first :: g).map Prod.fst))
      have hn1 := @numPages_new ν _ s (.internal ((first :: g).tail.map Prod.snd) ((first :: g).map Prod.fst))
      have l2 : Level (s.grow.set s.numPages (.internal ((first :: g).tail.map Prod.snd) ((first :: g).map Prod.fst)))
          (some next.2) hi ((next :: g') :: gs).flatten (ds.drop (g.length + 1)) :=
        ⟨g2.extends he, by rw [List.map_drop, hpages, hlen, List.drop_left]; simp⟩
      have hcut := List.take_append_drop (g.length + 1) ds
      generalize ds.take (g.length + 1) = ca at *
      generalize ds.drop (g.length + 1) = cb at *
      generalize s.grow.set s.numPages (.internal ((first :: g).tail.map Prod.snd) ((first :: g).map Prod.fst)) = s₁ at *
      refine (ih l2 he.stale (by omega) (by simp) fun x hx => hne x (List.mem_cons_of_mem _ hx)).mono ?_ fun e _ he =>
        ⟨he.1, fun hg => ?_⟩
      swap
      · obtain ⟨x, hx, hle⟩ := he.2 fun x hx => hg x (List.mem_cons_of_mem _ hx)
        exact ⟨x, by rw [List.flatten_cons]; exact List.mem_append_right _ hx, hle⟩
      rintro level s₂ ⟨⟨hlen', hhead, ds', hl', he', hleaves, hnew⟩, hpages', hnum', hkeys', hchildren'⟩
      obtain ⟨q, level, rfl⟩ : ∃ q level', level = q :: level' := by
        rcases level with _ | ⟨q, level⟩
        · simp at hlen'
        · exact ⟨q, level, rfl⟩
      have hq : q.2 = next.2 := by simpa using hhead
      refine ⟨⟨by simpa using hlen', rfl, PT.branch s.numPages (g.map Prod.snd) ca :: ds', ⟨?_, ?_⟩, he.trans he', ?_, ?_⟩,
        ⟨?_, ?_, ?_, ?_⟩⟩
      · have hrest : Good False s₂ (some next.2) hi (level.map Prod.snd) ds' := hl'.good
        have := (hca.extends he').append (u := []) hrest ?_ ?_
        · simpa [hq] using this
        · intro p hp hp'
          simp only [PT.pagesL, List.flatMap_cons, List.flatMap_nil, List.append_nil, PT.pages_branch, List.mem_cons] at hp
          rcases hnew p hp' with hp' | hp' <;> rcases hp with rfl | hp
          · exact lt_irrefl _ (g2.range _ hp').2
          · exact hdisj p hp hp'
          · omega
          · have := (g1.range p hp).2
            omega
        · rw [hleaves]
          simpa [PT.leavesL] using hchain
      · simp [hl'.pages]
      · rw [← hcut]
        simpa [PT.leavesL] using hleaves
      · intro p hp
        rw [← hcut, PT.pagesL, List.flatMap_append, List.mem_append]
        simp only [PT.pagesL, List.flatMap_cons, PT.pages_branch, List.cons_append, List.mem_cons, List.mem_append] at hp
        rcases hp with rfl | hp | hp
        · exact .inr le_rfl
        · exact .inl (.inl hp)
        · rcases hnew p hp with hp | hp
          · exact .inl (.inr hp)
          · exact .inr (by omega)
      · rw [List.map_cons, hpages', hn1]
        rfl
      · rw [hnum', hn1]
        simp only [List.length_cons]
        omega
      · intro e he
        rcases List.mem_cons.1 he with rfl | he
        · exact ⟨first, by simp, rfl⟩
        · obtain ⟨e', he', heq⟩ := hkeys' e he
          exact ⟨e', by rw [List.flatten_cons]; exact List.mem_append_right _ he', heq⟩
      · intro e he
        rw [List.flatten_cons] at he
        rcases List.mem_append.1 he with he | he
        · exact hchildren e he
        · exact hchildren' e he

/-! ### Levels -/

theorem groups_flatten {fuel : Nat} {level : List BTree.Entry} (h : level.length ≤ fuel) :
    (BTree.groups fuel level).flatten = level ∧ ∀ g ∈ BTree.groups fuel level, g ≠ [] := by
  induction fuel generalizing level with
  | zero =>
    obtain rfl := List.length_eq_zero_iff.1 (Nat.le_zero.1 h)
    exact ⟨rfl, by simp [BTree.groups]⟩
  | succ fuel ih =>
    rcases level with _ | ⟨e, level⟩
    · exact ⟨rfl, by simp [BTree.groups]⟩
    · obtain ⟨hf, hne⟩ := @ih ((e :: level).drop 32) (by simp only [List.length_drop, List.length_cons] at h ⊢; omega)
      rw [BTree.groups]
      refine ⟨by rw [List.flatten_cons, hf, List.take_append_drop], fun g hg => ?_⟩
      rcases List.mem_cons.1 hg with rfl | hg
      · simp
      · exact hne g hg

theorem length_groups {fuel : Nat} {level : List BTree.Entry} (h : level.length ≤ fuel) :
    (BTree.groups fuel level).length = (level.length + 31) / 32 ∧ ∀ g ∈ BTree.groups fuel level, g.length ≤ 32 := by
  induction fuel generalizing level with
  | zero =>
    obtain rfl := List.length_eq_zero_iff.1 (Nat.le_zero.1 h)
    exact ⟨rfl, by simp [BTree.groups]⟩
  | succ fuel ih =>
    rcases level with _ | ⟨e, level⟩
    · exact ⟨rfl, by simp [BTree.groups]⟩
    · obtain ⟨hlen, hle⟩ := @ih ((e :: level).drop 32) (by simp only [List.length_drop, List.length_cons] at h ⊢; omega)
      rw [BTree.groups]
      refine ⟨?_, fun g hg => ?_⟩
      · simp only [List.length_cons, List.length_drop] at hlen ⊢
        omega
      · rcases List.mem_cons.1 hg with rfl | hg
        · exact List.length_take_le _ _
        · exact hle g hg

/-- The page numbers of a level of `n` nodes on the pages from `a` on fit in its parents, and so on up to the root. -/
def PagesFit : Nat → Nat → Nat → Prop
  | 0, _, _ => True
  | fuel + 1, a, n => n ≤ 1 ∨ a + n ≤ 2 ^ 32 ∧ PagesFit fuel (a + n) ((n + 31) / 32)

/-- A tree on pages that were not there before. -/
def Built (s : Store ν) (root : Nat) (s' : Store ν) : Prop :=
  ∃ t : Tree, t.root = root ∧ TreeAt s' t ∧ Extends s s' ∧ ∀ p ∈ t.pages, s.numPages ≤ p

/-- The tree that was built has these leaves. -/
def BuiltOn (leaves : List PLeaf) (s : Store ν) (root : Nat) (s' : Store ν) : Prop :=
  ∃ t : Tree, t.root = root ∧ TreeAt s' t ∧ Extends s s' ∧ (∀ p ∈ t.pages, s.numPages ≤ p) ∧ t.2.leaves = leaves

omit [TreeLink ν] in
theorem lt_of_range' {level : List BTree.Entry} {a : Nat} (h : level.map Prod.fst = List.range' a level.length) :
    (∀ e ∈ level, e.1 < 2 ^ 32) ↔ level = [] ∨ a + level.length ≤ 2 ^ 32 := by
  have hall : (∀ e ∈ level, e.1 < 2 ^ 32) ↔ ∀ p ∈ List.range' a level.length, p < 2 ^ 32 := by
    rw [← h]
    simp
  rw [hall, ← List.length_eq_zero_iff]
  constructor
  · intro hlt
    rcases Nat.eq_zero_or_pos level.length with h0 | h0
    · exact .inl h0
    · have := hlt (a + (level.length - 1)) (List.mem_range'_1.2 (by omega))
      omega
  · rintro h0 p hp
    have := List.mem_range'_1.1 hp
    omega

theorem does_buildLevels {fuel : Nat} {s₀ : Store ν} {level : List BTree.Entry} {a : Nat} :
    {h : Nat} → {s : Store ν} → {ds : List (PT h)} →
    Level s none none level ds → Extends s₀ s → 0 < s.numPages → (∀ p ∈ PT.pagesL ds, s₀.numPages ≤ p) →
    (PT.leavesL ds).getLast?.map PLeaf.link = some noPage → level.length ≤ fuel →
    level.map Prod.fst = List.range' a level.length → s.numPages = a + level.length →
    Does (BTree.buildLevels fuel level) s (fun root s' => BuiltOn (PT.leavesL ds) s₀ root s' ∧ PagesFit fuel a level.length)
      fun e _ => Abort e ∧ ((∀ e ∈ level, IsI64 e.2) → ¬PagesFit fuel a level.length) := by
  induction fuel generalizing level a with
  | zero =>
    intro h s ds hl _ _ _ _ hf _ _
    have hlen := congrArg List.length hl.pages
    have hkids := hl.good.kids.length_eq
    rw [List.length_map, List.length_map] at hlen
    omega
  | succ fuel ih =>
    intro h s ds hl he hpos hnew hlast hf hrange hnum
    rw [BTree.buildLevels]
    split
    · rename_i hlen
      obtain ⟨hflat, hne⟩ := @groups_flatten level.length level le_rfl
      obtain ⟨hcount, hshort⟩ := @length_groups level.length level le_rfl
      have hgs : BTree.groups level.length level ≠ [] := by
        intro hnil
        rw [hnil] at hflat
        rw [← hflat] at hlen
        simp at hlen
      have hnil : level ≠ [] := by
        rintro rfl
        simp at hlen
      have hfit : (∀ e ∈ level, e.1 < 2 ^ 32) ↔ a + level.length ≤ 2 ^ 32 := by
        rw [lt_of_range' hrange, or_iff_right hnil]
      have hstep : PagesFit (fuel + 1) a level.length ↔
          a + level.length ≤ 2 ^ 32 ∧ PagesFit fuel (a + level.length) ((level.length + 31) / 32) :=
        or_iff_right (by omega)
      rw [does_bind, hstep, ← hfit]
      refine (does_parents (hflat.symm ▸ hl) he.stale hpos hgs hne).mono ?_ fun e _ he => ⟨he.1, fun hk hpages => ?_⟩
      swap
      · obtain ⟨x, hx, hle⟩ := he.2 fun g hg => ⟨hshort g hg, fun e heg => hk e (hflat ▸ List.mem_flatten.2 ⟨g, hg, heg⟩)⟩
        exact absurd (hpages.1 x (hflat ▸ hx)) (not_lt.2 hle)
      rintro level' s' ⟨⟨hlevel, -, ds', hl', he', hleaves, hpages⟩, hp⟩
      have hlevel' : level'.length = (level.length + 31) / 32 := hlevel.trans hcount
      have hkeys : (∀ e ∈ level, IsI64 e.2) → ∀ e ∈ level', IsI64 e.2 := by
        intro hk e he
        obtain ⟨e', he', heq⟩ := hp.keys e he
        exact heq ▸ hk e' (hflat ▸ he')
      have hchildren : ∀ e ∈ level, e.1 < 2 ^ 32 := fun e he => hp.children e (hflat.symm ▸ he)
      have hrec := ih hl' (he.trans he') (hpos.trans_le he'.numPages) (fun p hp => ?_) (hleaves ▸ hlast) (by omega)
        (a := a + level.length) (by rw [hp.pages, hlevel, hnum]) (by rw [hp.numPages, hlevel, hnum])
      · rw [hlevel', hleaves] at hrec
        exact hrec.mono (fun root t ht => ⟨ht.1, hchildren, ht.2⟩) fun e _ he => ⟨he.1, fun hk hfits => he.2 (hkeys hk) hfits.2⟩
      · rcases hpages p hp with hp | hp
        · exact hnew p hp
        · exact he.numPages.trans hp
    · rename_i hlen
      have hlen' : ds.length = level.length := by
        have := congrArg List.length hl.pages
        simpa using this
      have hpos' := hl.good.kids.length_eq
      obtain ⟨e, rfl⟩ : ∃ e, level = [e] := List.length_eq_one_iff.1 (by omega)
      obtain ⟨t, rfl⟩ : ∃ t, ds = [t] := List.length_eq_one_iff.1 (by simpa using hlen')
      have hpage : t.page = e.1 := by simpa using hl.pages
      rw [does_bind, does_at (a := e) rfl]
      exact ⟨⟨⟨h, t⟩, hpage, ⟨hl.good, hlast⟩, he, hnew, by simp [PT.leavesL]⟩, .inl le_rfl⟩

/-! ### Leaves -/

/-- The leaves as they were written, before they are linked. -/
def Written (s : Store ν) (e : BTree.Entry) (cells : List Cell) : Prop :=
  (∃ l, s.nodes e.1 = .ok (.leaf cells l)) ∧ e.1 < s.numPages ∧ cells.head?.map Prod.fst = some e.2

theorem does_writeLeaves {cs : List (List Cell)} (hst : s.stale = []) :
    Does (BTree.writeLeaves cs) s (fun level s' => (Extends s s' ∧ level.map Prod.fst = List.range' s.numPages cs.length ∧
      s'.numPages = s.numPages + cs.length ∧ List.Forall₂ (Written s') level cs) ∧
        ((∀ cells ∈ cs, LeafCells cells) → ∀ cells ∈ cs, 9 + cellsSize cells ≤ pageSize))
      fun e _ => Abort e ∧ ((∀ cells ∈ cs, cells ≠ [] ∧ LeafCells cells) → ∃ cells ∈ cs, pageSize < 9 + cellsSize cells) := by
  induction cs generalizing s with
  | nil => exact ⟨⟨⟨fun _ _ => rfl, le_rfl, hst⟩, rfl, rfl, .nil⟩, by simp⟩
  | cons cells cs ih =>
    rw [BTree.writeLeaves, does_bind, does_allocate, does_bind]
    have hnoPage : noPage < 2 ^ 32 := by decide
    refine does_write_of (fun hf => ?_) fun e he => ⟨fits_error he, fun hc => ⟨cells, by simp, ?_⟩⟩
    swap
    · by_contra hle
      cases he.symm.trans (((hc cells (by simp)).2.fits_iff hnoPage).2 (not_lt.1 hle))
    have he := extends_new hst (BTree.newLeaf cells)
    have hn := @numPages_new ν _ s (BTree.newLeaf cells)
    have hnode : (s.grow.set s.numPages (BTree.newLeaf cells)).nodes s.numPages =
        .ok (.leaf cells (TreeLink.ofCode (Link.code (TreeLink.ofCode noPage : ν)))) := Store.nodes_set_self
    generalize s.grow.set s.numPages (BTree.newLeaf cells) = s₁ at *
    rcases cells with _ | ⟨first, cells⟩
    · rw [does_bind]
      exact ⟨⟨by simp, by simp⟩, fun hc => absurd rfl (hc [] (by simp)).1⟩
    rw [does_bind, does_at (a := first) rfl, does_bind]
    refine (ih he.stale).mono ?_ fun e _ he => ⟨he.1, fun hc => ?_⟩
    swap
    · obtain ⟨x, hx, hlt⟩ := he.2 fun x hx => hc x (List.mem_cons_of_mem _ hx)
      exact ⟨x, List.mem_cons_of_mem _ hx, hlt⟩
    rintro level s' ⟨⟨he', hpages, hnum, hw⟩, hfit⟩
    have hnode' := (he'.frame _ (by omega)).trans hnode
    refine ⟨⟨he.trans he', ?_, ?_, .cons ⟨⟨_, hnode'⟩, ?_, rfl⟩ hw⟩, fun hc x hx => ?_⟩
    · rw [List.map_cons, hpages, hn]
      rfl
    · rw [hnum, hn, List.length_cons]
      omega
    · rw [hnum]
      omega
    · rcases List.mem_cons.1 hx with rfl | hx
      · exact ((hc _ (by simp)).fits_iff hnoPage).1 hf
      · exact hfit (fun y hy => hc y (List.mem_cons_of_mem _ hy)) x hx

omit [TreeLink ν] in
/-- No written leaf is empty. -/
theorem length_le_flatten {level : List BTree.Entry} {cs : List (List Cell)} (hw : List.Forall₂ (Written s) level cs) :
    level.length ≤ cs.flatten.length := by
  induction hw with
  | nil => exact le_rfl
  | @cons e cells level cs he _ ih =>
    have hne : cells ≠ [] := by
      rintro rfl
      cases he.2.2
    have := List.length_pos_of_ne_nil hne
    rw [List.flatten_cons, List.length_append, List.length_cons]
    omega

omit [TreeLink ν] in
theorem exists_written {level : List BTree.Entry} {cs : List (List Cell)} (hw : List.Forall₂ (Written s) level cs) :
    (∀ e ∈ level, ∃ cells ∈ cs, Written s e cells) ∧ ∀ cells ∈ cs, ∃ e ∈ level, Written s e cells := by
  induction hw with
  | nil => simp
  | @cons e cells level cs he _ ih =>
    refine ⟨fun e' he' => ?_, fun cells' hc => ?_⟩
    · rcases List.mem_cons.1 he' with rfl | he'
      · exact ⟨cells, by simp, he⟩
      · obtain ⟨cells', hc, hw⟩ := ih.1 e' he'
        exact ⟨cells', List.mem_cons_of_mem _ hc, hw⟩
    · rcases List.mem_cons.1 hc with rfl | hc
      · exact ⟨e, by simp, he⟩
      · obtain ⟨e', he', hw⟩ := ih.2 cells' hc
        exact ⟨e', List.mem_cons_of_mem _ he', hw⟩

theorem pagesL_leaves (ds : List (PT 0)) : PT.pagesL ds = (PT.leavesL ds).map PLeaf.page := by
  rw [PT.leavesL, List.map_flatMap]
  rfl

/-- A leaf in front of a level of leaves that it links to. -/
theorem Level.cons_leaf {p q : Nat} {first next : Int} {cells : List Cell} {level : List BTree.Entry} {ds : List (PT 0)}
    (hl : Level s (some next) hi ((q, next) :: level) ds) (hpages : PT.pagesL ds = ((q, next) :: level).map Prod.fst)
    (hac : Ascending cells) (hin : ∀ c ∈ cells, InRange lo (some next) c.1) (hle : ∀ a ∈ lo, ∀ b ∈ some next, Below False a b)
    (hnode : s.nodes p = .ok (.leaf cells (TreeLink.ofCode q))) (hp : 0 < p ∧ p < s.numPages)
    (hfresh : p ∉ ((q, next) :: level).map Prod.fst) :
    Level s lo hi ((p, first) :: (q, next) :: level) (PT.leaf p cells q :: ds) := by
  have hleaf : Good False s lo (some next) [] [PT.leaf p cells q] := good_leaf hac hin hle hnode hp
  have hgood := hleaf.append (u := []) hl.good ?_ ?_
  · exact ⟨by simpa using hgood, by simp [hl.pages]⟩
  · rw [hpages]
    intro m hm
    obtain rfl : m = p := by simpa [PT.pagesL] using hm
    exact hfresh
  · intro a ha b hb
    obtain rfl : a = ⟨p, cells, q⟩ := by simpa [PT.leavesL, eq_comm] using ha
    have hhead := congrArg List.head? hpages
    rw [pagesL_leaves, List.head?_map, Option.mem_def.1 hb] at hhead
    simpa [Next, eq_comm] using hhead

/-- The links make the leaves a level. -/
theorem does_linkLeaves {level : List BTree.Entry} {cs : List (List Cell)} (hst : s.stale = [])
    (hw : List.Forall₂ (Written s) level cs) (hpos : ∀ e ∈ level, 0 < e.1) (hnd : (level.map Prod.fst).Nodup)
    (hne : level ≠ []) (ha : Ascending cs.flatten) (hin : ∀ c ∈ cs.flatten, ∀ a ∈ lo, a ≤ c.1) :
    Does (BTree.linkLeaves level) s (fun _ s' => (∃ ds : List (PT 0), Level s' lo none level ds ∧
      PT.pagesL ds = level.map Prod.fst ∧ (PT.leavesL ds).getLast?.map PLeaf.link = some noPage ∧ s'.stale = [] ∧
        s'.numPages = s.numPages ∧ (∀ p, p ∉ level.map Prod.fst → s'.nodes p = s.nodes p) ∧
          (PT.leavesL ds).map PLeaf.cells = cs) ∧ ∀ p ∈ (level.map Prod.fst).tail, p < 2 ^ 32)
      fun e _ => Abort e ∧ ((∀ cells ∈ cs, LeafCells cells ∧ 9 + cellsSize cells ≤ pageSize) →
        ∃ p ∈ (level.map Prod.fst).tail, 2 ^ 32 ≤ p) := by
  induction level generalizing s lo cs with
  | nil => exact absurd rfl hne
  | cons e level ih =>
    obtain ⟨cells, cs, hwe, hws, rfl⟩ := List.forall₂_cons_left_iff.1 hw
    obtain ⟨p, first⟩ := e
    obtain ⟨⟨l, hnode⟩, hlt, hhead⟩ := hwe
    obtain ⟨hac, har, hcross⟩ := List.pairwise_append.1 (List.flatten_cons ▸ ha : Ascending (cells ++ cs.flatten))
    have hlo : ∀ c ∈ cells, ∀ a ∈ lo, a ≤ c.1 := fun c hc => hin c (by simp [hc])
    have hp : 0 < p := hpos (p, first) (by simp)
    obtain ⟨hfresh, hnd⟩ := List.nodup_cons.1 hnd
    simp only at hnode hlt hfresh
    rw [BTree.linkLeaves, does_bind, does_load hst ⟨hp, hlt⟩ hnode]
    simp only
    rw [does_bind, does_mutate, does_bind]
    refine does_write_of (fun hf => ?_) fun e he => ⟨fits_error he, fun hc => ?_⟩
    swap
    · -- the next page has too large a number
      obtain ⟨hcells, hle⟩ := hc cells (by simp)
      rcases level with _ | ⟨⟨q, next⟩, level⟩
      · cases he.symm.trans ((hcells.fits_iff (l := noPage) (by decide)).2 hle)
      · refine ⟨q, by simp, not_lt.1 fun hq => ?_⟩
        cases he.symm.trans ((fits_ofPage p q cells).trans ((hcells.fits_iff hq).2 hle))
    rw [Store.set_of_mutate]
    rcases level with _ | ⟨⟨q, next⟩, level⟩
    · -- the last leaf
      obtain rfl := List.forall₂_nil_left_iff.1 hws
      refine ⟨⟨[PT.leaf p cells noPage], ⟨good_leaf hac (fun c hc => ⟨hlo c hc, by simp⟩) (by simp) ?_ ⟨hp, ?_⟩, rfl⟩,
        by simp [PT.pagesL], by simp [PT.leavesL], by simp [Store.set, hst], Store.numPages_set hlt, fun q hq => ?_,
        by simp [PT.leavesL]⟩, by simp⟩
      · rw [Store.nodes_set_self, Node.reread, BTree.nextLink, TreeLink.code_ofCode]
      · rw [Store.numPages_set hlt]
        exact hlt
      · exact Store.nodes_set_other (by simpa using hq)
    · obtain ⟨cells', cs', hwe', hws', rfl⟩ := List.forall₂_cons_left_iff.1 hws
      obtain ⟨c', hc', hnext⟩ := Option.map_eq_some_iff.1 hwe'.2.2
      have hc' := List.mem_of_head? hc'
      have hnext : c'.1 = next := hnext
      have hbelow : ∀ c ∈ cells, c.1 < next := fun c hc => hnext ▸ hcross c hc c' (by simp [hc'])
      have hnext_le : ∀ c ∈ (cells' :: cs').flatten, next ≤ c.1 := by
        rcases cells' with _ | ⟨c₀, cells'⟩
        · cases hc'
        · obtain rfl : c₀.1 = next := by simpa [Written] using hwe'.2.2
          intro c hc
          rcases List.mem_cons.1 hc with rfl | hc
          · exact le_rfl
          · exact ((List.pairwise_cons.1 har).1 c hc).le
      generalize hs₁ : s.set p (.leaf cells (BTree.nextLink ((q, next) :: level))) = s₁
      have hother : ∀ m, m ≠ p → s₁.nodes m = s.nodes m := fun m hm => hs₁ ▸ Store.nodes_set_other hm
      have hnum : s₁.numPages = s.numPages := hs₁ ▸ Store.numPages_set hlt
      have hself : s₁.nodes p = .ok (.leaf cells (TreeLink.ofCode q)) := by
        rw [← hs₁, Store.nodes_set_self, Node.reread, BTree.nextLink, TreeLink.code_ofPage]
      have hw₁ : List.Forall₂ (Written s₁) ((q, next) :: level) (cells' :: cs') := by
        have hne : ∀ e ∈ (q, next) :: level, e.1 ≠ p :=
          fun e he h => hfresh (h ▸ List.mem_map_of_mem he)
        refine ((List.forall₂_and_left (p := fun e : BTree.Entry => e.1 ≠ p) _ _).2 ⟨hne, hws⟩).imp ?_
        rintro e cells'' ⟨he, hnode', hlt', hhead'⟩
        exact ⟨by rwa [hother _ he], hnum ▸ hlt', hhead'⟩
      have hst₁ : s₁.stale = [] := by simp [← hs₁, Store.set, hst]
      refine (@ih s₁ (some next) (cells' :: cs') hst₁ hw₁ (fun e he => hpos e (List.mem_cons_of_mem _ he)) hnd (by simp) har
        (fun c hc a ha => by cases ha; exact hnext_le c hc)).mono ?_ fun e _ he => ⟨he.1, fun hc => ?_⟩
      swap
      · obtain ⟨m, hm, hle⟩ := he.2 fun x hx => hc x (List.mem_cons_of_mem _ hx)
        exact ⟨m, List.mem_of_mem_tail hm, hle⟩
      rintro _ s' ⟨⟨ds, hl, hpages, hlast, hst', hnum', hframe, hcells⟩, htail⟩
      have hself' : s'.nodes p = .ok (.leaf cells (TreeLink.ofCode q)) := by rw [hframe p hfresh, hself]
      have hlt' : p < s'.numPages := by rwa [hnum', hnum]
      refine ⟨⟨PT.leaf p cells q :: ds, hl.cons_leaf hpages hac (fun c hc => ⟨hlo c hc, fun b hb => ?_⟩)
        (fun a ha b hb => ?_) hself' ⟨hp, hlt'⟩ hfresh, by simp [PT.pagesL] at hpages ⊢; exact hpages, ?_, hst',
        hnum'.trans hnum, fun m hm => ?_, ?_⟩, fun m hm => ?_⟩
      · cases hb
        exact hbelow c hc
      · cases hb
        exact ⟨hnext ▸ hin c' (by simp [hc']) a ha, fun hf => hf.elim⟩
      · have hne : PT.leavesL ds ≠ [] := by
          intro he
          rw [he] at hlast
          cases hlast
        have hcons : PT.leavesL (PT.leaf p cells q :: ds) = [⟨p, cells, q⟩] ++ PT.leavesL ds := by simp [PT.leavesL]
        rw [hcons, List.getLast?_append_of_ne_nil _ hne]
        exact hlast
      · rw [List.map_cons, List.mem_cons, not_or] at hm
        rw [hframe m hm.2, hother m hm.1]
      · rw [← hcells]
        simp [PT.leavesL]
      · rcases List.mem_cons.1 hm with rfl | hm
        · exact lt_of_fits_ofPage hf
        · exact htail m hm

/-! ### Reading the chain -/

theorem ascending_cells : {h : Nat} → {t : PT h} → {lo hi : Option Int} → PT.Bounded False lo hi t → Ascending (PT.cellsL [t])
  | 0, t, _, _, hb => by
    obtain ⟨p, cells, l, rfl⟩ := PT.exists_leaf t
    rw [PT.cellsL_leaf]
    exact hb.1
  | h + 1, t, lo, hi, hb => by
    have hkids : ∀ {lo hi : Option Int} {ks : List Int} {cs : List (PT h)}, Kids False (PT.Bounded False) lo hi ks cs →
        Ascending (PT.cellsL cs) := by
      intro lo hi ks cs hk
      induction hk with
      | one hr _ => exact ascending_cells hr
      | @cons lo hi k d ks cs hr hle hrest ih =>
        rw [← List.singleton_append, PT.cellsL_append]
        refine List.pairwise_append.2 ⟨ascending_cells hr, ih, fun a ha b hb => ?_⟩
        exact ((PT.cells_inRange hr a ha).2 k rfl).trans_le ((PT.cellsL_inRange hrest b hb).1 k rfl)
    obtain ⟨p, keys, kids, rfl⟩ := PT.exists_branch t
    rw [PT.cellsL_branch]
    exact hkids hb

theorem leaf_mem_nodes : {h : Nat} → {t : PT h} → {a : PLeaf} → a ∈ t.leaves →
    (a.page, Node.leaf a.cells (TreeLink.ofCode a.link)) ∈ t.nodes (ν := ν)
  | 0, t, a, ha => by
    obtain rfl := List.mem_singleton.1 ha
    exact List.mem_singleton.2 rfl
  | h + 1, t, a, ha => by
    obtain ⟨d, hd, ha⟩ := List.mem_flatMap.1 ha
    exact List.mem_cons_of_mem _ (List.mem_flatMap.2 ⟨d, hd, leaf_mem_nodes ha⟩)

theorem does_firstLeaf (hst : s.stale = []) : (fuel : Nat) → {h : Nat} → {t : PT h} → {lo hi : Option Int} → h < fuel →
    PT.Bounded False lo hi t → (∀ x ∈ t.nodes, s.nodes x.1 = .ok x.2) → (∀ p ∈ t.pages, 0 < p ∧ p < s.numPages) →
    Does (BTree.firstLeaf fuel t.page) s (fun n s' => (s' = s ∧ t.leaves.head?.map PLeaf.page = some n) ∧
      scanStart s.nodes none fuel t.page = .ok n) fun _ _ => False
  | 0, _, _, _, _, hf, _, _, _ => absurd hf (Nat.not_lt_zero _)
  | fuel + 1, 0, t, _, _, _, _, hs, hr => by
    obtain ⟨p, cells, l, rfl⟩ := PT.exists_leaf t
    rw [BTree.firstLeaf, PT.page_leaf, does_bind,
      does_load hst (hr p (by simp)) (hs (p, .leaf cells (TreeLink.ofCode l)) (by simp))]
    refine ⟨⟨rfl, rfl⟩, ?_⟩
    rw [scanStart, hs (p, .leaf cells (TreeLink.ofCode l)) (by simp)]
    rfl
  | fuel + 1, h + 1, t, lo, hi, hf, hb, hs, hr => by
    obtain ⟨p, keys, kids, rfl⟩ := PT.exists_branch t
    obtain ⟨c, cs, hi', hk, hc⟩ := Kids.head hb
    obtain rfl : kids = c :: cs := hk
    rw [BTree.firstLeaf, PT.page_branch, does_bind,
      does_load hst (hr p (by simp)) (hs (p, .internal keys ((c :: cs).map PT.page)) (by simp))]
    simp only
    rw [does_bind, does_at (a := c.page) rfl]
    refine (does_firstLeaf hst fuel (Nat.lt_of_succ_lt_succ hf) hc (fun x hx => hs x (by simp [hx]))
      fun q hq => hr q (by simp [hq])).mono ?_ fun _ _ he => he
    rintro n s' ⟨⟨rfl, hn⟩, hstart⟩
    refine ⟨⟨rfl, ?_⟩, ?_⟩
    · rw [PT.leaves_branch, List.flatMap_cons, List.head?_append_of_ne_nil _ (PT.leaves_ne_nil c hc)]
      exact hn
    · rw [scanStart, hs (p, .internal keys ((c :: cs).map PT.page)) (by simp)]
      exact hstart

/-- The scan returns cells of the chain, in their order, and all of them if no page has the number that ends the
chain. -/
structure Scanned (s : Store ν) (fuel : Nat) (a : PLeaf) (as : List PLeaf) (cells : List Cell) : Prop where
  sublist : cells.Sublist ((a :: as).flatMap PLeaf.cells)
  scan : scanChain s.nodes none none fuel a.page = .ok cells
  whole : (∀ b ∈ as, b.cells ≠ []) → (cells = (a :: as).flatMap PLeaf.cells ↔ ∀ b ∈ as, b.page ≠ noPage)

theorem does_chainCells {fuel : Nat} {a : PLeaf} {as : List PLeaf} (hst : s.stale = [])
    (hs : ∀ b ∈ a :: as, s.nodes b.page = .ok (.leaf b.cells (TreeLink.ofCode b.link)))
    (hr : ∀ b ∈ a :: as, 0 < b.page ∧ b.page < s.numPages) (hc : (a :: as).IsChain Next)
    (hlast : (a :: as).getLast?.map PLeaf.link = some noPage) (hf : as.length < fuel) :
    Does (BTree.chainCells fuel a.page) s (fun cells s' => s' = s ∧ Scanned s fuel a as cells) fun _ _ => False := by
  induction fuel generalizing a as with
  | zero => exact absurd hf (Nat.not_lt_zero _)
  | succ fuel ih =>
    rw [BTree.chainCells, does_bind, does_load hst (hr a (by simp)) (hs a (by simp))]
    have hscan : scanChain s.nodes none none (fuel + 1) a.page = _ := scanChain_leaf (hs a (by simp))
    simp only
    rcases as with _ | ⟨b, as⟩
    · obtain hl : a.link = noPage := by simpa using hlast
      rw [hl, TreeLink.follow_noPage] at hscan ⊢
      exact ⟨rfl, by simp, hscan, by simp⟩
    · have hl : a.link = b.page := (List.isChain_cons_cons.1 hc).1
      by_cases hno : b.page = noPage
      · -- a page with the number that ends the chain
        rw [hl, hno, TreeLink.follow_noPage] at hscan ⊢
        refine ⟨rfl, by simp, hscan, fun hne => iff_of_false (fun h => hne b (by simp) ?_) fun h => h b (by simp) hno⟩
        rw [List.flatMap_cons, List.flatMap_cons, List.self_eq_append_right, List.append_eq_nil_iff] at h
        exact h.1
      · rw [hl, TreeLink.follow_ofCode _ (hr b (by simp)).1.ne' hno] at hscan ⊢
        simp only at hscan ⊢
        rw [does_bind]
        refine (ih (fun c hc => hs c (List.mem_cons_of_mem _ hc)) (fun c hc => hr c (List.mem_cons_of_mem _ hc))
          (List.isChain_cons_cons.1 hc).2 (by simpa using hlast) (Nat.lt_of_succ_lt_succ hf)).mono ?_ fun _ _ he => he
        rintro cells s' ⟨rfl, hsub, hrest, hwhole⟩
        refine ⟨rfl, (List.Sublist.refl _).append hsub, by rw [hscan, hrest]; rfl, fun hne => ?_⟩
        rw [List.flatMap_cons, List.append_cancel_left_eq, hwhole fun c hc => hne c (List.mem_cons_of_mem _ hc),
          List.forall_mem_cons, and_iff_right hno]

theorem length_leaves_le : {h : Nat} → (t : PT h) → t.leaves.length ≤ t.pages.length
  | 0, _ => le_rfl
  | h + 1, t => by
    obtain ⟨p, keys, kids, rfl⟩ := PT.exists_branch t
    rw [PT.leaves_branch, PT.pages_branch, List.length_cons, List.length_flatMap, List.length_flatMap]
    exact (List.sum_le_sum fun c _ => length_leaves_le c).trans (Nat.le_succ _)

theorem does_items {t : Tree} (ht : TreeAt s t) (hst : s.stale = []) :
    Does (BTree.items s.numPages t.root) s (fun cells s' => (s' = s ∧ cells.Sublist t.cells) ∧
      rangeScan s.nodes s.numPages t.root none none = .ok cells ∧
        ((∀ l ∈ t.2.leaves.tail, l.cells ≠ []) → (cells = t.cells ↔ ∀ l ∈ t.2.leaves.tail, l.page ≠ noPage)))
      fun _ _ => False := by
  have hlen := ht.length_pages_le
  have hheight := ht.height_lt
  have hb := ht.bounded
  obtain ⟨-, hstored, -, hrange, hchain⟩ := ht.good
  have hlast := ht.lastLink
  obtain ⟨h, t⟩ := t
  rw [Tree.pages_eq] at hlen
  simp only [PT.nodesL, PT.pagesL, PT.leavesL, List.flatMap_cons, List.flatMap_nil, List.append_nil] at hstored hrange hchain
  rw [BTree.items, does_bind]
  refine (does_firstLeaf hst _ hheight hb hstored hrange).mono ?_ fun _ _ he => he
  rintro n s' ⟨⟨rfl, hn⟩, hstart⟩
  obtain ⟨a, ha, rfl⟩ := Option.map_eq_some_iff.1 hn
  obtain ⟨as, has⟩ : ∃ as, t.leaves = a :: as := ⟨_, List.eq_cons_of_mem_head? ha⟩
  have hnode : ∀ b ∈ a :: as, (b.page, Node.leaf b.cells (TreeLink.ofCode b.link)) ∈ t.nodes (ν := ν) :=
    fun b hb' => leaf_mem_nodes (has ▸ hb')
  have hleaves := length_leaves_le t
  rw [has, List.length_cons] at hleaves
  refine (does_chainCells hst (fun b hb' => hstored _ (hnode b hb')) (fun b hb' => hrange _ ?_) (has ▸ hchain)
    (by simpa [Tree.lastLink, PT.leavesL, has] using hlast) (hleaves.trans hlen)).mono ?_ fun _ _ he => he
  · rw [← PT.map_fst_nodes (ν := ν) t]
    exact List.mem_map_of_mem (hnode b hb')
  · rintro cells s' ⟨rfl, hsub, hscan, hwhole⟩
    have hcells : Tree.cells ⟨h, t⟩ = (a :: as).flatMap PLeaf.cells := by simp [Tree.cells, PT.cellsL, PT.leavesL, has]
    rw [hcells, has]
    exact ⟨⟨rfl, hsub⟩, rangeScan_ok.2 ⟨_, hstart, hscan⟩, hwhole⟩

/-! ### `bulk_load` and `vacuum` as a whole -/

theorem leafGroups_ok {cur data : List Cell} {gs : List (List Cell)} (h : BTree.leafGroups (ν := ν) cur data = .ok gs) :
    gs.flatten = cur ++ data := by
  induction data generalizing cur gs with
  | nil =>
    rw [BTree.leafGroups] at h
    obtain rfl := Except.ok.inj h
    split <;> simp_all
  | cons c cs ih =>
    rw [BTree.leafGroups] at h
    obtain ⟨probe, hprobe, h⟩ := bind_eq_ok.1 h
    split at h
    · split at h
      · cases h
      · obtain ⟨gs', hgs, h⟩ := bind_eq_ok.1 h
        obtain rfl := Except.ok.inj h
        simp [ih hgs]
    · rw [ih h, List.append_assoc, List.singleton_append]

theorem leafGroups_error {cur data : List Cell} {e : PyError} (h : BTree.leafGroups (ν := ν) cur data = .error e) :
    Abort (.raised e) := by
  induction data generalizing cur with
  | nil => cases h
  | cons c cs ih =>
    rw [BTree.leafGroups] at h
    rcases hprobe : (BTree.newLeaf (ν := ν) (cur ++ [c])).serializedSize with e' | probe
    · rw [hprobe] at h
      obtain rfl := Except.error.inj h
      exact serializedSize_error hprobe
    · rw [hprobe] at h
      change (if _ then _ else _) = _ at h
      split at h
      · split at h
        · obtain rfl := Except.error.inj h
          exact ⟨by simp, by simp⟩
        · rcases hgs : BTree.leafGroups (ν := ν) [] cs with e' | gs
          · rw [hgs] at h
            obtain rfl := Except.error.inj h
            exact ih hgs
          · rw [hgs] at h
            cases h
      · exact ih h

instance : Std.Total BTree.pairLe where
  total a b := by
    rcases lt_trichotomy a.1 b.1 with h | h | h
    · exact .inl (.inl h)
    · rcases le_total (a.2.map UInt8.toNat) (b.2.map UInt8.toNat) with h' | h'
      · exact .inl (.inr ⟨h, h'⟩)
      · exact .inr (.inr ⟨h.symm, h'⟩)
    · exact .inr (.inl h)

instance : IsTrans Cell BTree.pairLe where
  trans a b c := by
    rintro (h | ⟨h, h'⟩) (g | ⟨g, g'⟩)
    · exact .inl (h.trans g)
    · exact .inl (g ▸ h)
    · exact .inl (h ▸ g)
    · exact .inr ⟨h.trans g, h'.trans g'⟩

theorem ascending_sortPairs {pairs : List Cell} (hk : (pairs.map Prod.fst).Nodup) : Ascending (BTree.sortPairs pairs) := by
  have hperm : (BTree.sortPairs pairs).Perm pairs := List.perm_insertionSort _ _
  have hnd : ((BTree.sortPairs pairs).map Prod.fst).Nodup := (hperm.map _).nodup_iff.2 hk
  have hsorted : (BTree.sortPairs pairs).Pairwise BTree.pairLe := List.pairwise_insertionSort _ _
  refine (hsorted.and (List.pairwise_map.1 hnd)).imp ?_
  rintro a b ⟨h | ⟨h, -⟩, hne⟩
  · exact h
  · exact absurd h hne

omit [TreeLink ν] in
theorem Extends.refl (hst : s.stale = []) : Extends s s := ⟨fun _ _ => rfl, le_rfl, hst⟩

theorem BuiltOn.built {leaves : List PLeaf} {s' : Store ν} {root : Nat} (h : BuiltOn leaves s root s') : Built s root s' := by
  obtain ⟨t, hroot, ht, he, hpages, -⟩ := h
  exact ⟨t, hroot, ht, he, hpages⟩

/-- A new leaf without cells is a tree. -/
theorem builtOn_empty (hst : s.stale = []) (hpos : 0 < s.numPages) :
    BuiltOn [⟨s.numPages, [], noPage⟩] s s.numPages (s.grow.set s.numPages (BTree.newLeaf [])) := by
  refine ⟨⟨0, PT.leaf s.numPages [] noPage⟩, rfl, ⟨good_leaf .nil (by simp) (by simp) ?_ ⟨hpos, ?_⟩, rfl⟩, extends_new hst _,
    ?_, rfl⟩
  · rw [Store.nodes_set_self, BTree.newLeaf, Node.reread, TreeLink.code_ofCode]
  · rw [numPages_new]
    exact Nat.lt_succ_self _
  · simp [Tree.pages, PT.pagesL]

/-! ### When `bulk_load` returns -/

/-- No leaf is over a page when it is closed; `size` is the size of the current one. -/
def LeavesFit : Nat → List Cell → Prop
  | _, [] => True
  | size, c :: cs =>
    if pageSize - 16 < size + (12 + c.2.length) then size + (12 + c.2.length) ≤ pageSize ∧ LeavesFit 9 cs
    else LeavesFit (size + (12 + c.2.length)) cs

/-- The number of leaves; `size` is the size of the current one, 9 when it has no cells. -/
def leafCount : Nat → List Cell → Nat
  | size, [] => if size = 9 then 0 else 1
  | size, c :: cs =>
    if pageSize - 16 < size + (12 + c.2.length) then leafCount 9 cs + 1 else leafCount (size + (12 + c.2.length)) cs

/-- What the groups of cells say about the pairs. -/
structure Grouped (cur data : List Cell) (gs : List (List Cell)) : Prop where
  count : gs.length = leafCount (9 + cellsSize cur) data
  storable : ∀ g ∈ gs, g ≠ [] ∧ LeafCells g
  fit : (∀ g ∈ gs, 9 + cellsSize g ≤ pageSize) ↔ LeavesFit (9 + cellsSize cur) data

theorem exists_leafGroups {cur data : List Cell} (hcur : 9 + cellsSize cur ≤ pageSize - 16)
    (hc : ∀ c ∈ cur ++ data, IsI64 c.1 ∧ c.2.length ≤ maxValueSize) :
    ∃ gs, BTree.leafGroups (ν := ν) cur data = .ok gs ∧ Grouped cur data gs := by
  have hbound : 9 + cellsSize cur + (12 + maxValueSize) < 2 ^ 32 :=
    (Nat.add_le_add_right hcur _).trans_lt (by decide)
  induction data generalizing cur with
  | nil =>
    refine ⟨_, rfl, ?_⟩
    rcases cur with _ | ⟨c, cur⟩
    · exact ⟨rfl, by simp, by simp [LeavesFit]⟩
    · have hpos : ¬9 + cellsSize (c :: cur) = 9 := by
        rw [cellsSize_cons]
        omega
      refine ⟨(if_neg hpos).symm, fun g hg => ?_, ?_⟩
      · obtain rfl : g = c :: cur := by simpa using hg
        exact ⟨List.cons_ne_nil _ _, ⟨fun c' hc' => hc c' (by simpa using hc'), by omega⟩⟩
      · refine iff_of_true (fun g hg => ?_) trivial
        obtain rfl : g = c :: cur := by simpa using hg
        exact hcur.trans (Nat.sub_le _ _)
  | cons c cs ih =>
    have hv : c.2.length ≤ maxValueSize := (hc c (by simp)).2
    have hsize : 9 + cellsSize (cur ++ [c]) = 9 + cellsSize cur + (12 + c.2.length) := by
      rw [cellsSize_append, cellsSize_cons, cellsSize_nil]
      omega
    have hcells : ∀ c' ∈ cur ++ [c], IsI64 c'.1 ∧ c'.2.length ≤ maxValueSize := fun c' hc' => hc c' (by
      simp only [List.mem_append, List.mem_cons, List.not_mem_nil, or_false] at hc' ⊢
      tauto)
    have hstor : LeafCells (cur ++ [c]) := ⟨hcells, by omega⟩
    have hprobe : (BTree.newLeaf (ν := ν) (cur ++ [c])).serializedSize = .ok (9 + cellsSize (cur ++ [c])) :=
      PT.Packs.serializedSize (t := PT.leaf 0 (cur ++ [c]) noPage) (PT.packs_leaf.2 ⟨by decide, hcells⟩) hstor.size
    rw [BTree.leafGroups, hprobe]
    change ∃ gs, (if pageSize - 16 < 9 + cellsSize (cur ++ [c]) then _ else _) = Except.ok gs ∧ _
    rw [hsize]
    by_cases hlt : pageSize - 16 < 9 + cellsSize cur + (12 + c.2.length)
    · have hne : cur ≠ [] := by
        rintro rfl
        rw [cellsSize_nil, maxValueSize, pageSize] at *
        omega
      obtain ⟨gs, hgs, hg⟩ := @ih [] (by decide) (fun c' hc' => hc c' (by simp at hc' ⊢; tauto)) (by decide)
      rw [if_pos hlt, if_neg hne, hgs]
      refine ⟨_, rfl, ?_, fun g hgm => ?_, ?_⟩
      · rw [leafCount, if_pos hlt, List.length_cons, hg.count]
        rfl
      · rcases List.mem_cons.1 hgm with rfl | hgm
        · exact ⟨by simp, hstor⟩
        · exact hg.storable g hgm
      · rw [LeavesFit, if_pos hlt, List.forall_mem_cons, hsize, hg.fit]
        rfl
    · obtain ⟨gs, hgs, hg⟩ := @ih (cur ++ [c]) (by omega) (by simpa using hc)
        (by rw [hsize]; exact (Nat.add_le_add_right (not_lt.1 hlt) _).trans_lt (by decide))
      rw [if_neg hlt]
      refine ⟨gs, hgs, ?_, hg.storable, ?_⟩
      · rw [leafCount, if_neg hlt, hg.count, hsize]
      · rw [LeavesFit, if_neg hlt, hg.fit, hsize]

/-- The condition for `bulk_load` to return. -/
def LoadFits (fuel n : Nat) (pairs : List Cell) : Prop :=
  LeavesFit 9 (BTree.sortPairs pairs) ∧ PagesFit fuel n (leafCount 9 (BTree.sortPairs pairs))

/-- What `bulk_load` leaves: a tree with these leaves. -/
structure Loaded (s : Store ν) (pairs : List Cell) (fuel root : Nat) (s' : Store ν) (leaves : List PLeaf) : Prop where
  built : BuiltOn leaves s root s'
  cells : leaves.flatMap PLeaf.cells = BTree.sortPairs pairs
  pages : leaves.map PLeaf.page = List.range' s.numPages leaves.length
  full : ∀ l ∈ leaves.tail, l.cells ≠ []
  fits : (∀ c ∈ pairs, IsI64 c.1 ∧ c.2.length ≤ maxValueSize) →
    LoadFits fuel s.numPages pairs ∧ leaves.length = max 1 (leafCount 9 (BTree.sortPairs pairs))

theorem does_bulkLoad_leaves {fuel : Nat} {pairs : List Cell} (hst : s.stale = []) (hpos : 0 < s.numPages)
    (hk : (pairs.map Prod.fst).Nodup) (hf : pairs.length ≤ fuel) :
    Does (BTree.bulkLoad fuel pairs) s (fun root s' => ∃ leaves, Loaded s pairs fuel root s' leaves)
      fun e _ => Abort e ∧ ((∀ c ∈ pairs, IsI64 c.1 ∧ c.2.length ≤ maxValueSize) → ¬LoadFits fuel s.numPages pairs) := by
  have hperm : (BTree.sortPairs pairs).Perm pairs := List.perm_insertionSort _ _
  rw [BTree.bulkLoad]
  split
  · rename_i hnil
    obtain rfl : pairs = [] := by simpa [hnil] using hperm
    rw [does_bind, does_allocate, does_bind]
    have hfit : LoadFits fuel s.numPages [] := by
      refine ⟨trivial, ?_⟩
      rcases fuel with _ | fuel
      · trivial
      · exact .inl (Nat.zero_le _)
    refine does_write_of (fun _ => ?_) fun e he => ?_
    · exact ⟨_, builtOn_empty hst hpos, rfl, rfl, by simp, fun _ => ⟨hfit, rfl⟩⟩
    · cases he.symm.trans ((LeafCells.fits_iff (l := noPage) ⟨by simp, by decide⟩ (by decide)).2 (by decide))
  rename_i hne
  have hpairs : pairs ≠ [] := by
    rintro rfl
    exact hne rfl
  obtain ⟨fuel, rfl⟩ : ∃ fuel', fuel = fuel' + 1 :=
    Nat.exists_eq_succ_of_ne_zero ((List.length_pos_of_ne_nil hpairs).trans_le hf).ne'
  generalize hdata : BTree.sortPairs pairs = data at hne hperm
  have hcells : (∀ c ∈ pairs, IsI64 c.1 ∧ c.2.length ≤ maxValueSize) → ∀ c ∈ [] ++ data, IsI64 c.1 ∧ c.2.length ≤ maxValueSize :=
    fun hc c hcm => hc c (hperm.mem_iff.1 (by simpa using hcm))
  rw [does_bind]
  refine does_lift (fun gs hgs => ?_) fun e he => ⟨leafGroups_error he, fun hc => ?_⟩
  swap
  · obtain ⟨gs, hgs, -⟩ := exists_leafGroups (ν := ν) (by decide) (hcells hc)
    cases he.symm.trans hgs
  have hflat : gs.flatten = data := leafGroups_ok hgs
  have hgroup : (∀ c ∈ pairs, IsI64 c.1 ∧ c.2.length ≤ maxValueSize) → Grouped [] data gs := by
    intro hc
    obtain ⟨gs', hgs', hg⟩ := exists_leafGroups (ν := ν) (by decide) (hcells hc)
    rwa [Except.ok.inj (hgs.symm.trans hgs')]
  have hload : (∀ c ∈ pairs, IsI64 c.1 ∧ c.2.length ≤ maxValueSize) → (LoadFits (fuel + 1) s.numPages pairs ↔
      (∀ g ∈ gs, 9 + cellsSize g ≤ pageSize) ∧ PagesFit (fuel + 1) s.numPages gs.length) := by
    intro hc
    rw [LoadFits, hdata, (hgroup hc).fit, (hgroup hc).count]
    rfl
  rw [does_bind]
  refine (does_writeLeaves hst).mono ?_ fun e _ he => ⟨he.1, fun hc hl => ?_⟩
  swap
  · obtain ⟨g, hg, hlt⟩ := he.2 (hgroup hc).storable
    exact absurd (((hload hc).1 hl).1 g hg) (not_le.2 hlt)
  rintro level s₁ ⟨⟨he₁, hrange, hnum₁, hw⟩, hsizes⟩
  have hsizes : (∀ c ∈ pairs, IsI64 c.1 ∧ c.2.length ≤ maxValueSize) → ∀ g ∈ gs, 9 + cellsSize g ≤ pageSize :=
    fun hc => hsizes fun g hg => ((hgroup hc).storable g hg).2
  have hlen : level.length = gs.length := by simpa using congrArg List.length hrange
  have hlevel : level ≠ [] := by
    rintro rfl
    obtain rfl := List.forall₂_nil_left_iff.1 hw
    exact hne hflat.symm
  have hnew : ∀ p ∈ level.map Prod.fst, s.numPages ≤ p ∧ p < s.numPages + level.length := by
    intro p hp
    rw [hrange, ← hlen] at hp
    exact List.mem_range'_1.1 hp
  rw [does_bind]
  refine (@does_linkLeaves ν _ s₁ none level gs he₁.stale hw
    (fun e he => hpos.trans_le (hnew e.1 (List.mem_map_of_mem he)).1) (hrange ▸ List.nodup_range') hlevel
    (by rw [hflat, ← hdata]; exact ascending_sortPairs hk) (by simp)).mono ?_ fun e _ he => ⟨he.1, fun hc hl => ?_⟩
  swap
  · obtain ⟨p, hp, hle⟩ := he.2 fun g hg => ⟨((hgroup hc).storable g hg).2, hsizes hc g hg⟩
    have hlt := (hnew p (List.mem_of_mem_tail hp)).2
    have hpos' := List.length_pos_of_mem hp
    rw [List.length_tail, List.length_map] at hpos'
    have hpages := ((hload hc).1 hl).2
    rw [PagesFit, ← hlen] at hpages
    omega
  rintro _ s₂ ⟨⟨ds, hl, hpages, hlast, hst₂, hnum, hframe, hleaves⟩, -⟩
  have hnum₂ : s₂.numPages = s.numPages + level.length := by rw [hnum, hnum₁, hlen]
  have hkeys : (∀ c ∈ pairs, IsI64 c.1 ∧ c.2.length ≤ maxValueSize) → ∀ e ∈ level, IsI64 e.2 := by
    intro hc e he
    obtain ⟨g, hg, hwe⟩ := (exists_written hw).1 e he
    obtain ⟨c, hcg, hce⟩ := Option.map_eq_some_iff.1 hwe.2.2
    have hmem : c ∈ data := hflat ▸ List.mem_flatten.2 ⟨g, hg, List.mem_of_head? hcg⟩
    exact hce ▸ (hcells hc c (by simpa using hmem)).1
  have hfuel : level.length ≤ fuel + 1 := by
    have hle := length_le_flatten hw
    rw [hflat, hperm.length_eq] at hle
    exact hle.trans hf
  refine (does_buildLevels hl ⟨fun p hp => ?_, he₁.numPages.trans hnum.ge, hst₂⟩ (hpos.trans_le (he₁.numPages.trans hnum.ge))
    (fun p hp => (hnew p (hpages ▸ hp)).1) hlast hfuel (by rw [hrange, hlen]) hnum₂).mono (fun root s' hb => ?_)
    fun e _ he => ⟨he.1, fun hc hload' => he.2 (hkeys hc) (hlen ▸ ((hload hc).1 hload').2)⟩
  · have hold : p ∉ level.map Prod.fst := fun hm => absurd (hnew p hm).1 (not_le.2 hp)
    rw [hframe p hold, he₁.frame p hp]
  · have hcount : (PT.leavesL ds).length = gs.length := by rw [← hleaves, List.length_map]
    refine ⟨PT.leavesL ds, hb.1, ?_, ?_, fun l hl => ?_, fun hc => ⟨(hload hc).2 ⟨hsizes hc, hlen ▸ hb.2⟩, ?_⟩⟩
    · rw [List.flatMap_def, hleaves, hflat, hdata]
    · rw [hcount, ← pagesL_leaves, hpages, hrange]
    · have hg : l.cells ∈ gs := hleaves ▸ List.mem_map_of_mem (List.mem_of_mem_tail hl)
      obtain ⟨e, -, hwe⟩ := (exists_written hw).2 _ hg
      intro hnil
      rw [hnil] at hwe
      cases hwe.2.2
    · have hpos : 0 < gs.length := hlen ▸ List.length_pos_of_ne_nil hlevel
      have hgs : gs.length = leafCount 9 data := (hgroup hc).count
      rw [hcount, hdata, ← hgs]
      omega

theorem does_bulkLoad {fuel : Nat} {pairs : List Cell} (hst : s.stale = []) (hpos : 0 < s.numPages)
    (hk : (pairs.map Prod.fst).Nodup) (hf : pairs.length ≤ fuel) :
    Does (BTree.bulkLoad fuel pairs) s (Built s) fun e _ => Abort e :=
  (does_bulkLoad_leaves hst hpos hk hf).mono (fun _ _ ⟨_, hl⟩ => hl.built.built) fun _ _ he => he.1

theorem does_vacuum {t : Tree} (ht : TreeAt s t) (hst : s.stale = []) :
    Does (BTree.vacuum s.numPages t.root) s (fun r s' => Built s r.1 s') fun e _ => Abort e := by
  have hpos : 0 < s.numPages := (Nat.zero_le _).trans_lt (ht.good.range _ t.root_mem_pages).2
  rw [BTree.vacuum, does_bind]
  refine (does_items ht hst).mono ?_ fun _ _ he => he.elim
  rintro cells s' ⟨⟨rfl, hsub⟩, -⟩
  have hasc : Ascending t.cells := ascending_cells ht.bounded
  have hnd : (cells.map Prod.fst).Nodup :=
    (List.pairwise_map.2 ((List.Pairwise.sublist hsub hasc).imp fun h => h.ne))
  rw [does_bind]
  exact (does_bulkLoad hst hpos hnd (Nat.le_succ _)).mono (fun _ _ h => h) fun _ _ he => he

end LeafDb
