import LeafDb.TreeCheckSound
import LeafDb.TreeOccupancy
import LeafDb.TreeStructure

/-!
# What the checker says of a tree of the engine

On a tree that calls left, `BTree.check` returns if and only if the separators ascend strictly in every internal node and
no node but the root is underfull (`check_iff_of_run`); what it returns is then the number of keys. Everything else it
looks at is so in every tree that a run reaches.
-/

namespace LeafDb

open BTree (walk sortedSet separatorsSafe)

variable {strict : Prop} {h fuel : Nat} {s : Store (Option Nat)} {lo hi : Option Int} {keys : List Int} {kids : List (PT h)}

theorem forall₂_of_forall {α β : Type} {R : α → β → Prop} {l : List α} (hl : ∀ a ∈ l, ∃ b, R a b) : ∃ bs, List.Forall₂ R l bs := by
  induction l with
  | nil => exact ⟨[], .nil⟩
  | cons a l ih =>
    obtain ⟨b, hb⟩ := hl a (by simp)
    obtain ⟨bs, hbs⟩ := ih fun a ha => hl a (by simp [ha])
    exact ⟨b :: bs, .cons hb hbs⟩

/-! ### The walk over the tree -/

/-- The walk over `t` returns `w`. -/
structure Walks (s : Store (Option Nat)) (fuel depth : Nat) (t : PT h) (w : Walk) : Prop where
  eq : walk s.nodes fuel t.page depth = .ok w
  walked : w.walked = (PT.cellsL [t]).map Prod.fst
  depths : w.depths = List.replicate t.leaves.length (depth + h)
  lo : ∃ m ∈ w.walked, w.lo = some m

theorem sortedSet_eq {ks : List Int} (hk : ks.Pairwise (· < ·)) : ks = sortedSet ks := by
  have hnd : ks.Nodup := hk.imp ne_of_lt
  rw [sortedSet, hnd.dedup]
  exact (List.Pairwise.insertionSort_eq (hk.imp le_of_lt)).symm

/-- Every separator is at most the smallest key on its right. -/
theorem separatorsSafe_of_kids (hk : Kids strict (PT.Bounded strict) lo hi keys kids) {ws : List Walk} {d : Nat}
    (hws : List.Forall₂ (Walks s fuel d) kids ws) (pg j : Nat) : separatorsSafe pg j keys (ws.tail.map Walk.lo) = .ok () := by
  induction hk generalizing ws j with
  | one => rfl
  | @cons lo hi k c ks cs hr hle hrest ih =>
    obtain ⟨w, ws', -, hws', rfl⟩ : ∃ w ws', Walks s fuel d c w ∧ List.Forall₂ (Walks s fuel d) cs ws' ∧ ws = w :: ws' := by
      cases hws with
      | cons h₁ h₂ => exact ⟨_, _, h₁, h₂, rfl⟩
    have hsafe := ih hws'
    obtain ⟨c', cs', hi', rfl, hc'⟩ := hrest.head
    cases hws' with
    | @cons _ w' _ ws'' hw' _ =>
      obtain ⟨m, hm, hlo⟩ := hw'.lo
      rw [hw'.walked] at hm
      obtain ⟨cell, hcell, rfl⟩ := List.mem_map.1 hm
      have hkm : k ≤ cell.1 := (PT.cells_inRange hc' cell hcell).1 k rfl
      rw [List.tail_cons, List.map_cons, hlo, separatorsSafe]
      exact do_eq_ok.2 ⟨(), ensure_eq_ok.2 hkm, hsafe (j + 1)⟩

theorem walked_kids {d : Nat} {ws : List Walk} (hws : List.Forall₂ (Walks s fuel d) kids ws) :
    ws.flatMap Walk.walked = (PT.cellsL kids).map Prod.fst ∧
      ws.flatMap Walk.depths = List.replicate (PT.leavesL kids).length (d + h) := by
  induction hws with
  | nil => exact ⟨rfl, rfl⟩
  | @cons c w cs ws hw _ ih =>
    have hcells : PT.cellsL (c :: cs) = PT.cellsL [c] ++ PT.cellsL cs := PT.cellsL_append [c] cs
    rw [List.flatMap_cons, List.flatMap_cons, hw.walked, hw.depths, ih.1, ih.2, hcells, List.map_append]
    refine ⟨rfl, ?_⟩
    rw [← List.replicate_add, PT.leavesL, PT.leavesL, List.flatMap_cons, List.length_append]

theorem walk_leaf {p l d : Nat} {cells : List Cell} (hstored : s.nodes p = .ok (.leaf cells (TreeLink.ofCode l))) (ha : Ascending cells) :
    walk s.nodes (fuel + 1) p d =
      .ok ⟨(cells.map Prod.fst).head?, (cells.map Prod.fst).getLast?, cells.map Prod.fst, [d]⟩ := by
  rw [walk, hstored]
  exact do_eq_ok.2 ⟨_, rfl, do_eq_ok.2 ⟨(), ensure_eq_ok.2 (sortedSet_eq (Ascending.keys.1 ha)), rfl⟩⟩

/-- The walk over an internal node, after those over its children. -/
theorem walk_branch {p d : Nat} (hstored : s.nodes p = .ok (.internal keys (kids.map PT.page)))
    (hk : Kids strict (PT.Bounded strict) lo hi keys kids) (hkeys : keys.Pairwise (· < ·))
    (hkids : ∀ c ∈ kids, ∃ w, Walks s fuel (d + 1) c w) : ∃ w, Walks s (fuel + 1) d (PT.branch p keys kids) w := by
  obtain ⟨ws, hws⟩ := forall₂_of_forall hkids
  obtain ⟨hwalked, hdepths⟩ := walked_kids hws
  have hmap : (kids.map PT.page).mapM (fun cp => walk s.nodes fuel cp (d + 1)) = .ok ws :=
    mapM_eq_ok.2 (List.forall₂_map_left_iff.2 (hws.imp fun _ _ hw => hw.eq))
  have hlen : (kids.map PT.page).length = keys.length + 1 := (List.length_map _).trans hk.length_eq
  have hrun : walk s.nodes (fuel + 1) p d = .ok ⟨(ws.filterMap Walk.lo).min?, (ws.filterMap Walk.hi).max?,
      ws.flatMap Walk.walked, ws.flatMap Walk.depths⟩ := by
    rw [walk, hstored]
    refine do_eq_ok.2 ⟨_, rfl, do_eq_ok.2 ⟨(), ensure_eq_ok.2 hlen, do_eq_ok.2 ⟨(), ensure_eq_ok.2 (sortedSet_eq hkeys), ?_⟩⟩⟩
    exact do_eq_ok.2 ⟨ws, hmap, do_eq_ok.2 ⟨(), separatorsSafe_of_kids hk hws p 0, rfl⟩⟩
  refine ⟨_, hrun, by rw [hwalked, PT.cellsL_branch], ?_, ?_⟩
  · rw [hdepths, PT.leaves_branch, Nat.add_assoc, Nat.add_comm 1 h]
  · -- one of the children has the smallest key
    have hmem : ∀ m ∈ ws.filterMap Walk.lo, m ∈ ws.flatMap Walk.walked := by
      intro m hm
      obtain ⟨w, hw, hlo⟩ := List.mem_filterMap.1 hm
      obtain ⟨j, hj⟩ := List.getElem?_of_mem hw
      obtain ⟨c, -, hcw⟩ := forall₂_getElem?' hws hj
      obtain ⟨m', hm', hlo'⟩ := hcw.lo
      obtain rfl := Option.some.inj (hlo.symm.trans hlo')
      exact List.mem_flatMap.2 ⟨w, hw, hm'⟩
    obtain ⟨c, cs, -, rfl, -⟩ := hk.head
    cases hws with
    | cons hw _ =>
      obtain ⟨m, -, hlo⟩ := hw.lo
      cases hmin : (List.filterMap Walk.lo (_ :: _)).min? with
      | none =>
        rw [List.min?_eq_none_iff, List.filterMap_cons, hlo] at hmin
        cases hmin
      | some m' => exact ⟨m', hmem m' (List.min?_mem hmin), rfl⟩

/-- A node that is no root and whose tree has no underfull node. -/
theorem walks_of_filled : {h : Nat} → {t : PT h} → {lo hi : Option Int} → {fuel d : Nat} →
    (∀ x ∈ t.nodes (ν := Option Nat), s.nodes x.1 = .ok x.2) → t.Bounded strict lo hi → t.Separated (· < ·) → t.under = false →
    t.Filled → h < fuel → ∃ w, Walks s fuel d t w
  | 0, t, lo, hi, fuel + 1, d, hs, hb, _, hu, _, _ => by
    obtain ⟨p, cells, l, rfl⟩ := PT.exists_leaf t
    have hstored := hs (p, .leaf cells (TreeLink.ofCode l)) (by simp)
    have hne : cells ≠ [] := fun he => by simp [PT.under_leaf, he] at hu
    refine ⟨_, walk_leaf hstored hb.1, by rw [PT.cellsL_leaf], rfl, ?_⟩
    obtain ⟨c, cs, rfl⟩ := List.exists_cons_of_ne_nil hne
    exact ⟨c.1, List.mem_cons_self, rfl⟩
  | h + 1, t, lo, hi, fuel + 1, d, hs, hb, hsep, _, hf, hfuel => by
    obtain ⟨p, keys, kids, rfl⟩ := PT.exists_branch t
    have hk : Kids strict (PT.Bounded strict) lo hi keys kids := hb
    have hstored := hs (p, .internal keys (kids.map PT.page)) (by simp)
    refine walk_branch hstored hk hsep.2.1 fun c hc => ?_
    obtain ⟨lo', hi', hc'⟩ := hk.mem c hc
    obtain ⟨hu, hfc⟩ := hf c hc
    have hsc : ∀ x ∈ c.nodes (ν := Option Nat), s.nodes x.1 = .ok x.2 := fun x hx => hs x (by
      rw [PT.nodes_branch]
      exact List.mem_cons_of_mem _ (List.mem_flatMap.2 ⟨c, hc, hx⟩))
    exact walks_of_filled hsc hc' (hsep.2.2.2 c hc) hu hfc (Nat.lt_of_succ_lt_succ hfuel)

/-- The pages of a child. -/
theorem stored_child {p : Nat} (hs : ∀ x ∈ (PT.branch p keys kids).nodes (ν := Option Nat), s.nodes x.1 = .ok x.2) {c : PT h}
    (hc : c ∈ kids) : ∀ x ∈ c.nodes (ν := Option Nat), s.nodes x.1 = .ok x.2 := fun x hx => hs x (by
  rw [PT.nodes_branch]
  exact List.mem_cons_of_mem _ (List.mem_flatMap.2 ⟨c, hc, hx⟩))

/-- A walk that returns has found strict separators. -/
theorem separated_of_walk : {h : Nat} → {t : PT h} → {fuel d : Nat} → {w : Walk} →
    (∀ x ∈ t.nodes (ν := Option Nat), s.nodes x.1 = .ok x.2) → t.Separated (· ≤ ·) → walk s.nodes fuel t.page d = .ok w →
    t.Separated (· < ·)
  | 0, _, _, _, _, _, _, _ => trivial
  | h + 1, t, 0, d, w, _, _, hw => by cases hw
  | h + 1, t, fuel + 1, d, w, hs, hsep, hw => by
    obtain ⟨p, keys, kids, rfl⟩ := PT.exists_branch t
    have hstored := hs (p, .internal keys (kids.map PT.page)) (by simp)
    rw [PT.page_branch, walk, hstored] at hw
    obtain ⟨nd, hnd, hw⟩ := do_eq_ok.1 hw
    obtain rfl := Except.ok.inj hnd
    obtain ⟨-, -, hw⟩ := do_eq_ok.1 hw
    obtain ⟨_, hkeys, hw⟩ := do_eq_ok.1 hw
    obtain ⟨ws, hws, -⟩ := do_eq_ok.1 hw
    refine ⟨hsep.1, BTree.ascending_of_sortedSet (ensure_eq_ok.1 hkeys), hsep.2.2.1, fun c hc => ?_⟩
    obtain ⟨j, hj⟩ := List.getElem?_of_mem hc
    obtain ⟨w', -, hw'⟩ := forall₂_getElem? (mapM_eq_ok.1 hws) ((List.getElem?_map ..).trans (congrArg (Option.map PT.page) hj))
    exact separated_of_walk (stored_child hs hc) (hsep.2.2.2 c hc) hw'

/-! ### The walk along the leaves -/

/-- The descent of the checker to the first leaf. -/
theorem leftmost_eq : {h : Nat} → {t : PT h} → {lo hi : Option Int} → {fuel : Nat} →
    (∀ x ∈ t.nodes (ν := Option Nat), s.nodes x.1 = .ok x.2) → t.Bounded strict lo hi → h < fuel →
    ∃ a as, t.leaves = a :: as ∧ leftmost s.nodes fuel t.page = .ok a.page
  | 0, t, lo, hi, fuel + 1, hs, _, _ => by
    obtain ⟨p, cells, l, rfl⟩ := PT.exists_leaf t
    have hstored := hs (p, .leaf cells (TreeLink.ofCode l)) (by simp)
    refine ⟨_, _, rfl, ?_⟩
    rw [PT.page_leaf, leftmost, scanStart, hstored]
    rfl
  | h + 1, t, lo, hi, fuel + 1, hs, hb, hfuel => by
    obtain ⟨p, keys, kids, rfl⟩ := PT.exists_branch t
    have hk : Kids strict (PT.Bounded strict) lo hi keys kids := hb
    obtain ⟨c, cs, hi', rfl, hc⟩ := hk.head
    obtain ⟨a, as, has, hrun⟩ := leftmost_eq (stored_child hs (by simp)) hc (Nat.lt_of_succ_lt_succ hfuel)
    have hstored := hs (p, .internal keys ((c :: cs).map PT.page)) (by simp)
    refine ⟨a, as ++ cs.flatMap PT.leaves, by rw [PT.leaves_branch, List.flatMap_cons, has, List.cons_append], ?_⟩
    rw [PT.page_branch, leftmost, scanStart, hstored]
    exact hrun

theorem linked_eq {a : PLeaf} {as : List PLeaf} {seen : List Nat}
    (hs : ∀ b ∈ a :: as, s.nodes b.page = .ok (.leaf b.cells (TreeLink.ofCode b.link))) (hc : (a :: as).IsChain Next)
    (hlast : (a :: as).getLast?.map PLeaf.link = some noPage) (hno : ∀ b ∈ as, b.page ≠ noPage)
    (hnd : ((a :: as).map PLeaf.page).Nodup) (hseen : ∀ b ∈ a :: as, b.page ∉ seen) (hfuel : as.length < fuel) :
    BTree.linked s.nodes fuel a.page seen = .ok (((a :: as).flatMap PLeaf.cells).map Prod.fst) := by
  induction as generalizing a seen fuel with
  | nil =>
    obtain ⟨fuel, rfl⟩ := Nat.exists_eq_add_of_lt hfuel
    obtain hl : a.link = noPage := by simpa using hlast
    rw [BTree.linked, hs a (by simp), hl]
    refine do_eq_ok.2 ⟨_, rfl, do_eq_ok.2 ⟨(), ensure_eq_ok.2 (hseen a (by simp)), ?_⟩⟩
    rw [List.flatMap_cons, List.flatMap_nil, List.append_nil]
    rfl
  | cons b as ih =>
    obtain ⟨fuel, rfl⟩ : ∃ k, fuel = k + 1 := ⟨fuel - 1, by omega⟩
    obtain ⟨hl, hc⟩ := List.isChain_cons_cons.1 hc
    obtain ⟨hnot, hnd⟩ := List.nodup_cons.1 hnd
    have hcode : (TreeLink.ofCode b.page : Option Nat) = some b.page := if_neg (hno b (by simp))
    have hfresh : ∀ c ∈ b :: as, c.page ∉ a.page :: seen := by
      intro c hc hm
      rcases List.mem_cons.1 hm with he | hm
      · exact hnot (he ▸ List.mem_map_of_mem hc)
      · exact hseen c (List.mem_cons_of_mem _ hc) hm
    have hlt : as.length < fuel := by simpa using hfuel
    have hrest := ih (fun c hc => hs c (List.mem_cons_of_mem _ hc)) hc (by simpa using hlast)
      (fun c hc => hno c (List.mem_cons_of_mem _ hc)) hnd hfresh hlt
    rw [BTree.linked, hs a (by simp), show a.link = b.page from hl, hcode]
    refine do_eq_ok.2 ⟨_, rfl, do_eq_ok.2 ⟨(), ensure_eq_ok.2 (hseen a (by simp)), do_eq_ok.2 ⟨_, hrest, ?_⟩⟩⟩
    exact congrArg Except.ok (by simp)

/-! ### Occupancy -/

theorem not_underfull_eq_ok {nd : PyNode} {under : Bool} {size : Nat} (hu : underflow nd = .ok under) (hs : nd.serializedSize = .ok size)
    {text : Nat → String} {x : Except CheckError Unit} :
    (do
      let under ← liftPy (underflow nd)
      let size ← liftPy nd.serializedSize
      ensure (under = false) (text size)
      x) = .ok () ↔ under = false ∧ x = .ok () := by
  rw [hu, hs]
  constructor
  · intro h
    obtain ⟨_, hu', h⟩ := do_eq_ok.1 h
    obtain rfl := Except.ok.inj hu'
    obtain ⟨_, -, h⟩ := do_eq_ok.1 h
    obtain ⟨_, hunder, h⟩ := do_eq_ok.1 h
    exact ⟨ensure_eq_ok.1 hunder, h⟩
  · rintro ⟨hunder, h⟩
    exact do_eq_ok.2 ⟨_, rfl, do_eq_ok.2 ⟨_, rfl, do_eq_ok.2 ⟨(), ensure_eq_ok.2 hunder, h⟩⟩⟩

theorem mapM_unit_eq_ok {f : Nat → Except CheckError Unit} {l : List Nat} :
    (do
      let _ ← l.mapM f
      return ()) = .ok () ↔ ∀ c ∈ l, f c = .ok () := by
  constructor
  · intro h c hc
    obtain ⟨us, hus, -⟩ := do_eq_ok.1 h
    obtain ⟨j, hj⟩ := List.getElem?_of_mem hc
    obtain ⟨u, -, hu⟩ := forall₂_getElem? (mapM_eq_ok.1 hus) hj
    exact hu
  · intro h
    obtain ⟨us, hus⟩ := exists_mapM fun c hc => ⟨(), h c hc⟩
    exact do_eq_ok.2 ⟨us, hus, rfl⟩

/-- The last pass finds the underfull nodes. -/
theorem occupancy_eq_ok : {h : Nat} → {t : PT h} → {fuel : Nat} → {isRoot : Bool} →
    (∀ x ∈ t.nodes (ν := Option Nat), s.nodes x.1 = .ok x.2) → t.Legal → h < fuel →
    (BTree.occupancy s.nodes fuel t.page isRoot = .ok () ↔ (isRoot = false → t.under = false) ∧ t.Filled)
  | 0, t, fuel + 1, isRoot, hs, hl, _ => by
    have hu := PT.Fits.underflow (ν := Option Nat) hl.fits
    have hsize := PT.Fits.serializedSize (ν := Option Nat) hl.fits
    obtain ⟨p, cells, l, rfl⟩ := PT.exists_leaf t
    rw [PT.page_leaf, BTree.occupancy, hs (p, .leaf cells (TreeLink.ofCode l)) (by simp)]
    cases isRoot with
    | true => exact iff_of_true rfl ⟨fun h => (by cases h), trivial⟩
    | false =>
      refine (not_underfull_eq_ok hu hsize).trans ?_
      exact ⟨fun hr => ⟨fun _ => hr.1, trivial⟩, fun hr => ⟨hr.1 rfl, rfl⟩⟩
  | h + 1, t, fuel + 1, isRoot, hs, hl, hfuel => by
    have hu := PT.Fits.underflow (ν := Option Nat) hl.fits
    have hsize := PT.Fits.serializedSize (ν := Option Nat) hl.fits
    obtain ⟨p, keys, kids, rfl⟩ := PT.exists_branch t
    have hkids : (∀ c ∈ kids.map PT.page, BTree.occupancy s.nodes fuel c false = .ok ()) ↔ (PT.branch p keys kids).Filled := by
      rw [PT.filled_branch, List.forall_mem_map]
      refine forall₂_congr fun c hc => ?_
      refine (occupancy_eq_ok (stored_child hs hc) (hl.legalKids.1.legal c hc) (Nat.lt_of_succ_lt_succ hfuel)).trans ?_
      simp
    rw [PT.page_branch, BTree.occupancy, hs (p, .internal keys (kids.map PT.page)) (by simp)]
    cases isRoot with
    | true => exact mapM_unit_eq_ok.trans (hkids.trans (by simp))
    | false => exact (not_underfull_eq_ok hu hsize).trans (and_congr (by simp) (mapM_unit_eq_ok.trans hkids))

/-! ### The whole check -/

/-- The walk from the root, which may be an empty leaf. -/
theorem walk_root {d : Nat} : {h : Nat} → {t : PT h} → {lo hi : Option Int} →
    (∀ x ∈ t.nodes (ν := Option Nat), s.nodes x.1 = .ok x.2) → t.Bounded strict lo hi → t.Separated (· < ·) → t.Filled → h < fuel →
    ∃ w, walk s.nodes fuel t.page d = .ok w ∧ w.walked = (PT.cellsL [t]).map Prod.fst ∧
      w.depths = List.replicate t.leaves.length (d + h)
  | 0, t, lo, hi, hs, hb, _, _, hfuel => by
    obtain ⟨fuel, rfl⟩ := Nat.exists_eq_add_of_lt hfuel
    obtain ⟨p, cells, l, rfl⟩ := PT.exists_leaf t
    have hstored := hs (p, .leaf cells (TreeLink.ofCode l)) (by simp)
    exact ⟨_, walk_leaf hstored hb.1, by rw [PT.cellsL_leaf], rfl⟩
  | h + 1, t, lo, hi, hs, hb, hsep, hf, hfuel => by
    obtain ⟨fuel, rfl⟩ : ∃ k, fuel = k + 1 := ⟨fuel - 1, by omega⟩
    obtain ⟨p, keys, kids, rfl⟩ := PT.exists_branch t
    have hk : Kids strict (PT.Bounded strict) lo hi keys kids := hb
    have hstored := hs (p, .internal keys (kids.map PT.page)) (by simp)
    obtain ⟨w, hw⟩ := walk_branch (d := d) (p := p) hstored hk hsep.2.1 fun c hc => by
      obtain ⟨lo', hi', hc'⟩ := hk.mem c hc
      obtain ⟨hu, hfc⟩ := hf c hc
      exact walks_of_filled (stored_child hs hc) hc' (hsep.2.2.2 c hc) hu hfc (Nat.lt_of_succ_lt_succ hfuel)
    exact ⟨w, hw.eq, hw.walked, hw.depths⟩

theorem leafPages_sublist : {h : Nat} → (t : PT h) → (t.leaves.map PLeaf.page).Sublist t.pages
  | 0, _ => List.Sublist.refl _
  | h + 1, t => by
    obtain ⟨p, keys, kids, rfl⟩ := PT.exists_branch t
    rw [PT.leaves_branch, PT.pages_branch, List.map_flatMap]
    refine List.Sublist.cons _ ?_
    induction kids with
    | nil => exact List.Sublist.refl _
    | cons c cs ih =>
      rw [List.flatMap_cons, List.flatMap_cons]
      exact (leafPages_sublist c).append ih

/-- The walk along the leaves meets all cells. -/
theorem TreeAt.linked {t : Tree} (ht : TreeAt s t) (hl : t.Linkable) {a : PLeaf} {as : List PLeaf} (has : t.2.leaves = a :: as)
    (hfuel : t.pages.length < fuel) : BTree.linked s.nodes fuel a.page [] = .ok (t.cells.map Prod.fst) := by
  obtain ⟨-, hstored, hnodup, -, hchain⟩ := ht.good
  have hlast := ht.lastLink
  have hcells : t.cells = (a :: as).flatMap PLeaf.cells := by
    rw [Tree.cells, PT.cellsL, PT.leavesL, List.flatMap_singleton, has]
  have hnode : ∀ b ∈ a :: as, s.nodes b.page = .ok (.leaf b.cells (TreeLink.ofCode b.link)) := fun b hb =>
    hstored _ (List.mem_flatMap.2 ⟨t.2, by simp, leaf_mem_nodes (has ▸ hb)⟩)
  have hsub := leafPages_sublist t.2
  rw [Tree.Linkable, PT.leafPages, PT.leavesL, List.flatMap_singleton, has] at hl
  rw [Tree.lastLink, PT.leavesL, List.flatMap_singleton, has] at hlast
  rw [PT.leavesL, List.flatMap_singleton, has] at hchain
  rw [PT.pagesL, List.flatMap_singleton] at hnodup
  rw [has] at hsub
  have hlen := hsub.length_le
  rw [List.length_map, List.length_cons, ← Tree.pages_eq] at hlen
  rw [hcells]
  exact linked_eq hnode hchain hlast (fun b hb => hl _ (List.mem_map_of_mem hb)) (hnodup.sublist hsub)
    (fun b _ => List.not_mem_nil) (Nat.lt_of_succ_lt (Nat.lt_of_le_of_lt hlen hfuel))

section Sound

variable {root : Nat} {tr : Tree}

theorem SoundTree.nodes_stored (ht : SoundTree s root tr) : ∀ x ∈ tr.2.nodes (ν := Option Nat), s.nodes x.1 = .ok x.2 := fun x hx =>
  ht.tree.good.stored x (List.mem_flatMap.2 ⟨tr.2, by simp, hx⟩)

/-- A sound tree passes the check when its separators ascend strictly and no node but the root is underfull. -/
theorem SoundTree.check_returns (ht : SoundTree s root tr) (hl : tr.Linkable) (hsep : tr.2.Separated (· < ·)) (hf : tr.2.Filled)
    (hfuel : tr.pages.length < fuel) : BTree.check s.nodes fuel root = .ok ⟨tr.cells.length, true⟩ := by
  have hb := ht.tree.bounded
  have hle : tr.1 < fuel := (tr.pages_eq ▸ height_lt hb).trans hfuel
  obtain rfl := ht.root
  obtain ⟨w, hw, hwalked, hdepths⟩ := walk_root (d := 1) ht.nodes_stored hb hsep hf hle
  obtain ⟨a, as, has, hleft⟩ := leftmost_eq ht.nodes_stored hb hle
  have hocc : BTree.occupancy s.nodes fuel tr.root true = .ok () :=
    (occupancy_eq_ok ht.nodes_stored ht.legal hle).2 ⟨fun h => (by cases h), hf⟩
  have hone : w.depths.dedup.insertionSort (· ≤ ·) = [1 + tr.1] := by
    rw [hdepths, List.replicate_dedup (by simp [has])]
    rfl
  have hlen : w.walked.length = tr.cells.length := by
    rw [hwalked, List.length_map]
    rfl
  rw [BTree.check]
  refine do_eq_ok.2 ⟨w, hw, do_eq_ok.2 ⟨a.page, by rw [Tree.root, hleft]; rfl, do_eq_ok.2 ⟨_, ht.tree.linked hl has hfuel, ?_⟩⟩⟩
  refine do_eq_ok.2 ⟨(), ensure_eq_ok.2 hwalked.symm, do_eq_ok.2 ⟨(), hocc, ?_⟩⟩
  refine do_eq_ok.2 ⟨(), ensure_eq_ok.2 (by rw [hone]; rfl), ?_⟩
  rw [hone, hlen]
  rfl

/-- A sound tree passes the check exactly when its separators ascend strictly and no node but the root is underfull. -/
theorem SoundTree.check_eq_ok (ht : SoundTree s root tr) (hl : tr.Linkable) (hfuel : tr.pages.length < fuel) {r : CheckReport} :
    BTree.check s.nodes fuel root = .ok r ↔ (tr.2.Separated (· < ·) ∧ tr.2.Filled) ∧ r = ⟨tr.cells.length, true⟩ := by
  constructor
  · intro hr
    have hb := ht.tree.bounded
    have hle : tr.1 < fuel := (tr.pages_eq ▸ height_lt hb).trans hfuel
    have hroot : tr.2.page = root := ht.root
    obtain ⟨w, hw, hrest⟩ := do_eq_ok.1 hr
    have hsep := separated_of_walk ht.nodes_stored (hb.separated And.left) (hroot ▸ hw)
    obtain ⟨page, -, hrest⟩ := do_eq_ok.1 hrest
    obtain ⟨ks, -, hrest⟩ := do_eq_ok.1 hrest
    obtain ⟨-, -, hrest⟩ := do_eq_ok.1 hrest
    obtain ⟨_, hocc, -⟩ := do_eq_ok.1 hrest
    obtain ⟨-, hf⟩ := (occupancy_eq_ok ht.nodes_stored ht.legal hle).1 (hroot ▸ hocc)
    exact ⟨⟨hsep, hf⟩, Except.ok.inj (hr.symm.trans (ht.check_returns hl hsep hf hfuel))⟩
  · rintro ⟨⟨hsep, hf⟩, rfl⟩
    exact ht.check_returns hl hsep hf hfuel

end Sound

namespace PyTree

/-- After every run the check returns if and only if the separators ascend strictly and no node but the root is underfull, and
with the number of keys. -/
theorem check_iff_of_run {t : PyTree} {root : Nat} (hstart : t.Start root) {calls : List Call} {s : PyTree × Nat}
    (hrun : Run next (fun s c => c.Legal ∧ ¬c.SplitsLast s.1 s.2) (t, root) calls s) :
    ∃ tr, Shaped (· ≤ ·) s.1.store s.2 tr ∧ ∀ fuel, tr.pages.length < fuel → ∀ r,
      BTree.check s.1.store.nodes fuel s.2 = .ok r ↔ (tr.2.Separated (· < ·) ∧ tr.2.Filled) ∧ r = ⟨tr.cells.length, true⟩ := by
  have hinv := Run.invariant (P := Inv) ?_ hrun hstart.inv
  · obtain ⟨tr, m, h, hl, -⟩ := hinv
    refine ⟨tr, h.shaped hl, ?_⟩
    intro fuel hfuel r
    exact h.sound.check_eq_ok hl hfuel
  · rintro s c s' ⟨tr, m, h, hl, hm⟩ ⟨hc, hlast⟩ hstep
    obtain ⟨tr', m', h', hl', hm', -⟩ := h.next hl hm hc hlast hstep
    exact ⟨tr', m', h', hl', hm'⟩

theorem check_iff_threeLeaves : ∃ s, Run next (fun s c => c.Legal ∧ ¬c.SplitsLast s.1 s.2) (leafTree 2, 1)
    [.insert 1 longValue, .insert 2 longValue, .insert 3 longValue] s ∧
      ∃ tr, Shaped (· ≤ ·) s.1.store s.2 tr ∧ ∀ fuel, tr.pages.length < fuel → ∀ r,
        BTree.check s.1.store.nodes fuel s.2 = .ok r ↔ (tr.2.Separated (· < ·) ∧ tr.2.Filled) ∧ r = ⟨tr.cells.length, true⟩ := by
  obtain ⟨t, hrun, -⟩ := run_threeLeaves (v := longValue) List.length_replicate
  have hrun' : Run next (fun s c => c.Legal ∧ ¬c.SplitsLast s.1 s.2) (leafTree 2, 1) _ _ := hrun.mono fun s c hc => ⟨hc.1, hc.2.1⟩
  exact ⟨_, hrun', check_iff_of_run (start_leafTree le_rfl) hrun'⟩

end PyTree

end LeafDb
