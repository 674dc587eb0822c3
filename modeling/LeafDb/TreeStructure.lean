import LeafDb.TreeMap
import LeafDb.TreeStrict

/-!
# The structure of the tree along a run

What `BTree.check` is there to check, of every state that calls on a tree reach: one depth, separators that ascend and
part the keys, a chain that visits the leaves in order, no page used twice. Separators may coincide (`shaped_of_run`); they
ascend strictly in runs in which no deletion makes a leaf borrow the lowest key that its sibling may hold
(`shaped_strict_of_run`), and not in all (`not_shaped_strict`).
-/

namespace LeafDb

variable {h : Nat}

/-! ### What is meant -/

/-- In every internal node of the tree there is one child more than separators, the separators are in the order `R`, and
each of them is above the keys on its left and not above the keys on its right. -/
def PT.Separated (R : Int → Int → Prop) : {h : Nat} → PT h → Prop
  | 0, _ => True
  | _ + 1, t => (PNode.kids t).length = (PNode.keys t).length + 1 ∧ (PNode.keys t).Pairwise R ∧
      (∀ i k, (PNode.keys t)[i]? = some k → (∀ c ∈ PT.cellsL ((PNode.kids t).take (i + 1)), c.1 < k) ∧
        ∀ c ∈ PT.cellsL ((PNode.kids t).drop (i + 1)), k ≤ c.1) ∧
      ∀ c ∈ PNode.kids t, Separated R c

/-- `next_leaf` goes from each of the pages to the one behind it, and from the last one nowhere. -/
def Chained (s : Store (Option Nat)) : List Nat → Prop
  | [] => False
  | [p] => ∃ cells, s.nodes p = .ok (.leaf cells none)
  | p :: q :: ps => (∃ cells, s.nodes p = .ok (.leaf cells (some q))) ∧ Chained s (q :: ps)

/-- The tree `t` is on the pages at `root`, with its leaves chained from left to right and no page used twice. -/
structure Shaped (R : Int → Int → Prop) (s : Store (Option Nat)) (root : Nat) (t : Tree) : Prop where
  root : t.root = root
  stored : ∀ x ∈ t.2.nodes (ν := Option Nat), s.nodes x.1 = .ok x.2
  separated : t.2.Separated R
  chain : Chained s (PT.leafPages [t.2])
  nodup : t.pages.Nodup

/-! ### Sound trees have it -/

/-- Every child has bounds of its own. -/
theorem Kids.mem {α : Type} {strict : Prop} {R : Option Int → Option Int → α → Prop} {lo hi : Option Int} {ks : List Int}
    {cs : List α} (hk : Kids strict R lo hi ks cs) : ∀ c ∈ cs, ∃ lo' hi', R lo' hi' c := by
  induction hk with
  | one hr _ =>
    intro c hc
    exact List.mem_singleton.1 hc ▸ ⟨_, _, hr⟩
  | cons hr _ _ ih =>
    intro c hc
    rcases List.mem_cons.1 hc with rfl | hc
    · exact ⟨_, _, hr⟩
    · exact ih c hc

theorem PT.Bounded.separated {strict : Prop} {R : Int → Int → Prop} (hR : ∀ {a b}, Below strict a b → R a b) :
    {h : Nat} → {t : PT h} → {lo hi : Option Int} → PT.Bounded strict lo hi t → t.Separated R
  | 0, _, _, _, _ => trivial
  | h + 1, t, lo, hi, hb => by
    obtain ⟨p, keys, kids, rfl⟩ := PT.exists_branch t
    have hk : Kids strict (PT.Bounded strict) lo hi keys kids := hb
    refine ⟨hk.length_eq, hk.pairwise.imp hR, ?_, ?_⟩
    · intro i k hi'
      change keys[i]? = some k at hi'
      have hlt := (List.getElem?_eq_some_iff.1 hi').1
      rw [PT.eq_around hi', List.append_assoc, List.singleton_append] at hk
      obtain ⟨hleft, hright⟩ := hk.split
      rw [List.length_take, min_eq_left hlt.le] at hleft hright
      exact ⟨fun c hc => (PT.cellsL_inRange hleft c hc).2 k rfl, fun c hc => (PT.cellsL_inRange hright c hc).1 k rfl⟩
    · intro c hc
      obtain ⟨lo', hi', hc'⟩ := hk.mem c hc
      exact hc'.separated hR

section Chain

variable {s : Store (Option Nat)} {t : Tree}

/-- The leaves of a chain, with pages that a link can name. -/
theorem chained_leaves {a : PLeaf} {as : List PLeaf}
    (hs : ∀ b ∈ a :: as, s.nodes b.page = .ok (.leaf b.cells (TreeLink.ofCode b.link))) (hc : (a :: as).IsChain Next)
    (hlast : (a :: as).getLast?.map PLeaf.link = some noPage) (hno : ∀ b ∈ as, b.page ≠ noPage) :
    Chained s ((a :: as).map PLeaf.page) := by
  induction as generalizing a with
  | nil =>
    obtain hl : a.link = noPage := by simpa using hlast
    refine ⟨a.cells, ?_⟩
    rw [hs a (by simp), hl]
    rfl
  | cons b as ih =>
    obtain ⟨hl, hc⟩ := List.isChain_cons_cons.1 hc
    refine ⟨⟨a.cells, ?_⟩, ih (fun c hc => hs c (List.mem_cons_of_mem _ hc)) hc (by simpa using hlast) fun c hc => hno c
      (List.mem_cons_of_mem _ hc)⟩
    have hcode : (TreeLink.ofCode b.page : Option Nat) = some b.page := if_neg (hno b (by simp))
    rw [hs a (by simp), show a.link = b.page from hl, hcode]

theorem TreeAt.chained (ht : TreeAt s t) (hl : t.Linkable) : Chained s (PT.leafPages [t.2]) := by
  obtain ⟨-, hstored, -, -, hchain⟩ := ht.good
  have hlast := ht.lastLink
  rw [Tree.Linkable] at hl
  simp only [PT.leafPages, PT.leavesL, PT.nodesL, List.flatMap_cons, List.flatMap_nil, List.append_nil, Tree.lastLink] at *
  have hne := PT.leaves_ne_nil t.2 ht.bounded
  have hnode : ∀ b ∈ t.2.leaves, s.nodes b.page = .ok (.leaf b.cells (TreeLink.ofCode b.link)) :=
    fun b hb => hstored _ (leaf_mem_nodes hb)
  obtain ⟨a, as, has⟩ := List.exists_cons_of_ne_nil hne
  rw [has] at hnode hchain hlast hl ⊢
  exact chained_leaves hnode hchain hlast fun b hb => hl _ (List.mem_map_of_mem hb)

end Chain

namespace PyTree

variable {t : PyTree} {root : Nat} {tr : Tree}

theorem Holds.shaped (h : Holds t root tr) (hl : tr.Linkable) : Shaped (· ≤ ·) t.store root tr where
  root := h.sound.root
  stored x hx := h.sound.tree.good.stored x (by simpa [PT.nodesL] using hx)
  separated := h.sound.tree.bounded.separated And.left
  chain := h.sound.tree.chained hl
  nodup := h.sound.tree.good.nodup

theorem Holds.shaped_strict (h : Holds t root tr) (hl : tr.Linkable) (hs : tr.Strict) : Shaped (· < ·) t.store root tr := by
  obtain ⟨hb, -⟩ := hs
  exact { h.shaped hl with separated := hb.separated fun hab => hab.2 trivial }

/-! ### Runs -/

/-- A call on the tree at `root`, without its reply. -/
def next (s : PyTree × Nat) (c : Call) : Option (PyTree × Nat) := (s.1.call s.2 c).map Prod.snd

/-- A deletion makes a leaf borrow the lowest key that its left sibling may hold, and it is the only one there. -/
def Call.TakesLowest (t : PyTree) (root : Nat) : Call → Prop
  | delete key => ∃ tr, TreeAt t.store tr ∧ tr.root = root ∧ tr.2.Collides key none
  | _ => False

/-- What every call keeps. -/
def Inv (s : PyTree × Nat) : Prop := ∃ tr m, Holds s.1 s.2 tr ∧ tr.Linkable ∧ Lists tr.cells m

theorem Start.inv (h : t.Start root) : Inv (t, root) :=
  ⟨_, fun _ => none, h.holds, by simp [Tree.Linkable], by simp [Lists, Tree.cells]⟩

/-- One call: the tree before it and the tree after it. -/
theorem Holds.next (h : Holds t root tr) (hl : tr.Linkable) {m : Int → Option Bytes} (hm : Lists tr.cells m) {c : Call}
    (hc : c.Legal) (hlast : ¬c.SplitsLast t root) {s' : PyTree × Nat} (hstep : next (t, root) c = some s') :
    ∃ tr' m', Holds s'.1 s'.2 tr' ∧ tr'.Linkable ∧ Lists tr'.cells m' ∧ c.Makes t.pager.numPages tr tr' := by
  obtain ⟨⟨r, t', root'⟩, hx, rfl⟩ := Option.map_eq_some_iff.1 hstep
  obtain ⟨-, tr', h', hm', hmakes⟩ := h.call_makes hl hm hc hx
  exact ⟨tr', _, h', h.linkable hl hmakes hlast, hm', hmakes⟩

/-- A call that is no such deletion keeps the separators strictly ascending. -/
theorem Holds.strict (h : Holds t root tr) (hs : tr.Strict) {c : Call} {tr' : Tree} {n : Nat} (hmakes : c.Makes n tr tr')
    (hcol : ¬c.TakesLowest t root) : tr'.Strict := by
  cases c with
  | insert key value =>
    obtain rfl | ⟨-, m, hput⟩ := hmakes
    · exact hs
    · exact hs.put hput
  | upsert key value =>
    obtain ⟨hkey, rfl⟩ | ⟨-, m, hput⟩ := hmakes
    · exact hs.replace hkey
    · exact hs.put hput
  | delete key =>
    obtain ⟨found, herase⟩ := hmakes
    exact hs.erase (fun hc => hcol ⟨tr, h.sound.tree, h.sound.root, hc⟩) herase
  | search | rangeScan =>
    obtain rfl : tr' = tr := hmakes
    exact hs

/-- In every run the tree keeps its structure, up to separators that coincide. -/
theorem shaped_of_run (hstart : t.Start root) {calls : List Call} {s : PyTree × Nat}
    (hrun : Run next (fun s c => c.Legal ∧ ¬c.SplitsLast s.1 s.2) (t, root) calls s) :
    ∃ tr, Shaped (· ≤ ·) s.1.store s.2 tr := by
  have hinv := Run.invariant (P := Inv) ?_ hrun hstart.inv
  · obtain ⟨tr, m, h, hl, -⟩ := hinv
    exact ⟨tr, h.shaped hl⟩
  · rintro s c s' ⟨tr, m, h, hl, hm⟩ ⟨hc, hlast⟩ hstep
    obtain ⟨tr', m', h', hl', hm', -⟩ := h.next hl hm hc hlast hstep
    exact ⟨tr', m', h', hl', hm'⟩

/-- In every run in which no deletion takes the lowest key of a leaf the separators ascend strictly. -/
theorem shaped_strict_of_run (hstart : t.Start root) {calls : List Call} {s : PyTree × Nat}
    (hrun : Run next (fun s c => c.Legal ∧ ¬c.SplitsLast s.1 s.2 ∧ ¬c.TakesLowest s.1 s.2) (t, root) calls s) :
    ∃ tr, Shaped (· < ·) s.1.store s.2 tr := by
  have hinv := Run.invariant
    (P := fun s : PyTree × Nat => ∃ tr m, Holds s.1 s.2 tr ∧ tr.Linkable ∧ Lists tr.cells m ∧ tr.Strict) ?_ hrun
    ⟨_, fun _ => none, hstart.holds, by simp [Tree.Linkable], by simp [Lists, Tree.cells],
      PT.parted_single (by simp) (PT.bounded_leaf.2 ⟨.nil, by simp⟩)⟩
  · obtain ⟨tr, m, h, hl, -, hs⟩ := hinv
    exact ⟨tr, h.shaped_strict hl hs⟩
  · rintro s c s' ⟨tr, m, h, hl, hm, hs⟩ ⟨hc, hlast, hcol⟩ hstep
    obtain ⟨tr', m', h', hl', hm', hmakes⟩ := h.next hl hm hc hlast hstep
    exact ⟨tr', m', h', hl', hm', h.strict hs hmakes hcol⟩

/-! ### Two equal separators -/

section ThreeLeaves

variable {v : Bytes} {n : Nat}

/-- A leaf with a long value has no room for a second one. -/
theorem put_long (hv : v.length = 2048) {j k : Int} (hjk : j < k) (p l n : Nat) :
    PT.put k v (PT.leaf p [(j, v)] l) n = .ok (([k], [PT.leaf p [(j, v)] n, PT.leaf n [(k, v)] l]), n + 1) := by
  have hbig : ¬9 + cellsSize [(j, v), (k, v)] ≤ pageSize := by simp [hv, pageSize]
  have hb : bisectLeft ([(j, v)].map Prod.fst) k = 1 := bisectLeft_append (l := [j]) (r := []) (by simpa using hjk) (by simp)
  have hno : ¬PT.hasKey [(j, v)] k = true := by
    rw [PT.hasKey, hb]
    simp
  rw [PT.put_leaf, if_neg hno, hb]
  change PT.putLeaf p [(j, v), (k, v)] l n = _
  rw [PT.putLeaf, if_neg hbig]
  simp

/-- Three long values, each in a leaf of its own. -/
def threeLeaves (v : Bytes) : Tree :=
  ⟨1, PT.branch 3 [2, 3] [PT.leaf 1 [(1, v)] 2, PT.leaf 2 [(2, v)] 4, PT.leaf 4 [(3, v)] noPage]⟩

theorem put_threeLeaves (hv : v.length = 2048) : (twoLeaves v).put 3 v 4 = .ok (threeLeaves v, 5) := by
  have hi : bisectRight [2] 3 = 1 := by decide
  have hput : PT.put 3 v (twoLeaves v).2 4 =
      .ok (([], [PT.branch 3 [2, 3] [PT.leaf 1 [(1, v)] 2, PT.leaf 2 [(2, v)] 4, PT.leaf 4 [(3, v)] noPage]]), 5) := by
    have hc : [PT.leaf 1 [(1, v)] 2, PT.leaf 2 [(2, v)] noPage][bisectRight [2] 3]? = some (PT.leaf 2 [(2, v)] noPage) := by
      rw [hi]
      rfl
    change PT.put 3 v (PT.branch 3 [2] [PT.leaf 1 [(1, v)] 2, PT.leaf 2 [(2, v)] noPage]) 4 = _
    rw [PT.put_branch hc, put_long hv (by decide), hi]
    rfl
  rw [Tree.put]
  change (PT.put 3 v (twoLeaves v).2 4 >>= _) = _
  rw [hput]
  rfl

theorem legal_threeLeaves (hv : v.length = 2048) : (threeLeaves v).Legal := by
  have hleaf : ∀ (p l : Nat) (k : Int), 0 ≤ k ∧ k < 100 → l < 2 ^ 32 → (PT.leaf p [(k, v)] l).Legal := by
    intro p l k hk hl
    refine PT.fits_leaf.2 ⟨⟨hl, ?_⟩, by simp [hv, pageSize]⟩
    simpa using ⟨isI64_of_small hk, hv.trans_le (by decide)⟩
  refine PT.LegalKids.branch ⟨rfl, ?_, ?_, by simp⟩ (by simp)
  · simpa using ⟨isI64_of_small (by omega), isI64_of_small (by omega)⟩
  · simp only [List.mem_cons, List.not_mem_nil, or_false, forall_eq_or_imp, forall_eq]
    exact ⟨hleaf 1 2 1 (by omega) (by decide), hleaf 2 4 2 (by omega) (by decide), hleaf 4 noPage 3 (by omega) (by decide)⟩

/-- The last leaf is empty without its key, and takes the only cell of the leaf on its left. -/
theorem erase_threeLeaves (hv : v.length = 2048) : (threeLeaves v).erase 3 =
    .ok (⟨1, PT.branch 3 [2, 2] [PT.leaf 1 [(1, v)] 2, PT.leaf 2 [] 4, PT.leaf 4 [(2, v)] noPage]⟩, true) := by
  have hi : bisectRight [2, 3] 3 = 2 := by decide
  have hb : bisectLeft [3] 3 = 0 := by decide
  have hleaf : PT.erase 3 (PT.leaf 4 [(3, v)] noPage) = .ok (PT.leaf 4 [] noPage, true) := by
    have hkey : PT.hasKey [(3, v)] 3 = true := by
      change ([(3, v)][bisectLeft [3] 3]?).any (fun c => decide (c.1 = 3)) = true
      rw [hb]
      rfl
    rw [PT.erase_leaf, if_pos hkey]
    change Except.ok (PT.leaf 4 ([(3, v)].eraseIdx (bisectLeft [3] 3)) noPage, true) = _
    rw [hb]
    rfl
  have hspare : (PT.leaf 2 [(2, v)] 4).spare = true := by
    rw [PT.spare_eq_true, PT.size_leaf, cellsSize_cons]
    simp [hv, minBytes, pageSize]
  have herase : PT.erase 3 (threeLeaves v).2 =
      .ok (PT.branch 3 [2, 2] [PT.leaf 1 [(1, v)] 2, PT.leaf 2 [] 4, PT.leaf 4 [(2, v)] noPage], true) := by
    have hc : [PT.leaf 1 [(1, v)] 2, PT.leaf 2 [(2, v)] 4, PT.leaf 4 [(3, v)] noPage][bisectRight [2, 3] 3]? =
        some (PT.leaf 4 [(3, v)] noPage) := by
      rw [hi]
      rfl
    change PT.erase 3 (PT.branch 3 [2, 3] [PT.leaf 1 [(1, v)] 2, PT.leaf 2 [(2, v)] 4, PT.leaf 4 [(3, v)] noPage]) = _
    rw [PT.erase_branch hc, hleaf, hi]
    change (PT.rebalance [2, 3] [PT.leaf 1 [(1, v)] 2, PT.leaf 2 [(2, v)] 4, PT.leaf 4 [] noPage] 2 >>= _) = _
    rw [PT.rebalance, if_pos ⟨by decide, hspare⟩]
    rfl
  rw [Tree.erase]
  change (PT.erase 3 (threeLeaves v).2 >>= _) = _
  rw [herase]
  rfl

/-- The same call without the map. -/
theorem next_of_call {c : Call} {t' : PyTree} {r : Reply} {root' : Nat} (hcall : t.call root c = some (r, t', root'))
    (hn : t.pager.numPages = n) (hne : n ≠ noPage) : next (t, root) c = some (t', root') ∧ ¬c.SplitsLast t root :=
  ⟨by rw [next, hcall]; rfl, (step_of_call (fun _ => none) hcall hn hne).2⟩

end ThreeLeaves

/-- The calls that put three long values into a new tree. -/
theorem run_threeLeaves {v : Bytes} (hv : v.length = 2048) :
    ∃ t, Run next (fun s c => c.Legal ∧ ¬c.SplitsLast s.1 s.2 ∧ ¬c.TakesLowest s.1 s.2) (leafTree 2, 1)
      [.insert 1 v, .insert 2 v, .insert 3 v] (t, 3) ∧ Holds t 3 (threeLeaves v) ∧ t.pager.numPages = 5 := by
  have hmax : v.length ≤ maxValueSize := hv.trans_le (by decide)
  have h64 : ∀ k : Int, 0 ≤ k ∧ k < 100 → IsI64 k := fun k => isI64_of_small
  obtain ⟨t₁, hcall₁, h₁, hn₁⟩ := call_insert_leafTree (n := 2) hv le_rfl
  obtain ⟨t₂, hcall₂, h₂, hn₂⟩ := h₁.call_insert (h64 2 (by omega)) hmax (by simp [Tree.cells])
    (by rw [hn₁]; exact put_twoLeaves hv 2) (legal_twoLeaves hv (by decide))
  obtain ⟨t₃, hcall₃, h₃, hn₃⟩ := h₂.call_insert (h64 3 (by omega)) hmax (by simp [mem_cells_twoLeaves])
    (by rw [hn₂]; exact put_threeLeaves hv) (legal_threeLeaves hv)
  obtain ⟨hstep₁, hlast₁⟩ := next_of_call hcall₁ (numPages_leafTree le_rfl) (by decide)
  obtain ⟨hstep₂, hlast₂⟩ := next_of_call hcall₂ hn₁ (by decide)
  obtain ⟨hstep₃, hlast₃⟩ := next_of_call hcall₃ hn₂ (by decide)
  exact ⟨t₃, .cons ⟨⟨h64 1 (by omega), hmax⟩, hlast₁, id⟩ hstep₁ <| .cons ⟨⟨h64 2 (by omega), hmax⟩, hlast₂, id⟩ hstep₂ <|
    .cons ⟨⟨h64 3 (by omega), hmax⟩, hlast₃, id⟩ hstep₃ (.nil _), h₃, hn₃⟩

theorem shaped_threeLeaves : ∃ s, Run next (fun s c => c.Legal ∧ ¬c.SplitsLast s.1 s.2) (leafTree 2, 1)
    [.insert 1 longValue, .insert 2 longValue, .insert 3 longValue] s ∧ ∃ tr, Shaped (· ≤ ·) s.1.store s.2 tr := by
  obtain ⟨t, hrun, -⟩ := run_threeLeaves length_longValue
  have hrun' : Run next (fun s c => c.Legal ∧ ¬c.SplitsLast s.1 s.2) (leafTree 2, 1) _ _ := hrun.mono fun s c hc => ⟨hc.1, hc.2.1⟩
  exact ⟨_, hrun', shaped_of_run (start_leafTree le_rfl) hrun'⟩

theorem shaped_strict_threeLeaves : ∃ s, Run next (fun s c => c.Legal ∧ ¬c.SplitsLast s.1 s.2 ∧ ¬c.TakesLowest s.1 s.2)
    (leafTree 2, 1) [.insert 1 longValue, .insert 2 longValue, .insert 3 longValue] s ∧
      ∃ tr, Shaped (· < ·) s.1.store s.2 tr := by
  obtain ⟨t, hrun, -⟩ := run_threeLeaves length_longValue
  exact ⟨_, hrun, shaped_strict_of_run (start_leafTree le_rfl) hrun⟩

/-- Deleting the last of three long values leaves the separators 2 and 2. -/
theorem not_shaped_strict : ∃ s, Run next (fun s c => c.Legal ∧ ¬c.SplitsLast s.1 s.2) (leafTree 2, 1)
    [.insert 1 longValue, .insert 2 longValue, .insert 3 longValue, .delete 3] s ∧ ¬∃ tr, Shaped (· < ·) s.1.store s.2 tr := by
  have hlen := length_longValue
  generalize longValue = v at hlen ⊢
  obtain ⟨t₃, hrun, h₃, hn₃⟩ := run_threeLeaves hlen
  have hstarve : ¬(threeLeaves v).2.Starves 3 := by
    have hi : bisectRight [2, 3] 3 = 2 := by decide
    change ¬PT.StarvesAt 3 [2, 3] [PT.leaf 1 [(1, v)] 2, PT.leaf 2 [(2, v)] 4, PT.leaf 4 [(3, v)] noPage]
    rw [PT.StarvesAt, hi]
    rintro ⟨-, -, y, hy, -⟩
    cases hy
  obtain ⟨tr', found, t₄, herase, hcall₄, h₄⟩ := h₃.call_delete hstarve
  obtain ⟨rfl, rfl⟩ := Prod.mk.inj (Except.ok.inj ((erase_threeLeaves hlen).symm.trans herase))
  obtain ⟨hstep₄, hlast₄⟩ := next_of_call hcall₄ hn₃ (by decide)
  refine ⟨_, (hrun.mono fun s c hc => ⟨hc.1, hc.2.1⟩).append (.single ⟨trivial, hlast₄⟩ hstep₄), ?_⟩
  rintro ⟨⟨h, tr⟩, hroot, hstored, hsep, -⟩
  -- the root is what the deletion has left there
  have hnode := h₄.sound.tree.good.load (List.mem_singleton.2 rfl)
  have hstored' := hstored _ tr.node_mem
  have hpage : tr.page = 3 := hroot
  have hnode' : t₄.store.nodes tr.page = .ok (.internal [2, 2] [1, 2, 4]) := by
    rw [hpage]
    exact hnode.1
  rw [hnode'] at hstored'
  rcases h with _ | h
  · cases hstored'
  · obtain ⟨p, keys, kids, rfl⟩ := PT.exists_branch tr
    obtain ⟨rfl, -⟩ := Node.internal.inj (Except.ok.inj hstored')
    have hpair := hsep.2.1
    change [(2 : Int), 2].Pairwise (· < ·) at hpair
    simp at hpair

end PyTree

end LeafDb
