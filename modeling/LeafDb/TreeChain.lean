import LeafDb.TreeTotal

/-!
# The pages of the leaves

Insertion puts at most one page into the chain of the leaves: the next new one, behind the first leaf, when the leaf
where the key belongs is split (`put_leafPages`). Overwriting keeps the pages (`leafPages_replace`), and deletion only
takes pages out, and never the first (`erase_leafPages`). So how a run leaves the end of the chain is known from the
insertions that split a leaf.
-/

namespace LeafDb

/-! ### Lists with the same head -/

/-- `l'` has the element `n` more than `l`, behind the first one. -/
def OneMore (l : List Nat) (n : Nat) (l' : List Nat) : Prop := ∃ a b, a ≠ [] ∧ l = a ++ b ∧ l' = a ++ n :: b

/-- `l'` comes from `l` by leaving out elements behind the first one. -/
def Thins (l l' : List Nat) : Prop := l'.Sublist l ∧ l'.head? = l.head?

section Lists

variable {l l' l'' : List Nat} {n : Nat}

theorem OneMore.context (h : OneMore l n l') (x y : List Nat) : OneMore (x ++ l ++ y) n (x ++ l' ++ y) := by
  obtain ⟨a, b, ha, rfl, rfl⟩ := h
  exact ⟨x ++ a, b ++ y, fun he => ha (List.append_eq_nil_iff.1 he).2, by simp, by simp⟩

theorem OneMore.mem_tail (h : OneMore l n l') {p : Nat} (hp : p ∈ l'.tail) : p = n ∨ p ∈ l.tail := by
  obtain ⟨a, b, ha, rfl, rfl⟩ := h
  obtain ⟨x, a, rfl⟩ := List.exists_cons_of_ne_nil ha
  simp only [List.cons_append, List.tail_cons, List.mem_append, List.mem_cons] at hp ⊢
  tauto

theorem OneMore.thins (h : OneMore l n l') : Thins l' l := by
  obtain ⟨a, b, ha, rfl, rfl⟩ := h
  obtain ⟨x, a, rfl⟩ := List.exists_cons_of_ne_nil ha
  exact ⟨List.Sublist.append_left (List.sublist_cons_self n b) _, rfl⟩

theorem Thins.refl (l : List Nat) : Thins l l := ⟨List.Sublist.refl l, rfl⟩

theorem Thins.trans (h : Thins l l') (h' : Thins l' l'') : Thins l l'' := ⟨h'.1.trans h.1, h'.2.trans h.2⟩

theorem Thins.context (h : Thins l l') (x y : List Nat) : Thins (x ++ l ++ y) (x ++ l' ++ y) := by
  refine ⟨((List.Sublist.refl x).append h.1).append (List.Sublist.refl y), ?_⟩
  rw [List.head?_append, List.head?_append, List.head?_append, List.head?_append, h.2]

theorem Thins.mem_tail (h : Thins l l') {p : Nat} (hp : p ∈ l'.tail) : p ∈ l.tail := by
  obtain ⟨hsub, hhead⟩ := h
  rcases l' with _ | ⟨x, l'⟩
  · cases hp
  · obtain ⟨l, rfl⟩ : ∃ t, l = x :: t := ⟨_, List.eq_cons_of_mem_head? hhead.symm⟩
    exact (List.cons_sublist_cons.1 hsub).subset hp

end Lists

namespace PT

variable {h : Nat} {key : Int} {value : Bytes} {n : Nat}

/-- The pages of the leaves, in order. -/
def leafPages (ds : List (PT h)) : List Nat := (leavesL ds).map PLeaf.page

@[simp] theorem leafPages_leaf (p l : Nat) (cells : List Cell) : leafPages [leaf p cells l] = [p] := by
  simp [leafPages, leavesL]

@[simp] theorem leafPages_branch (p : Nat) (keys : List Int) (kids : List (PT h)) : leafPages [branch p keys kids] = leafPages kids := by
  simp [leafPages, leavesL]

@[simp] theorem leafPages_append (ds ds' : List (PT h)) : leafPages (ds ++ ds') = leafPages ds ++ leafPages ds' := by
  simp [leafPages, leavesL]

theorem leafPages_cons (d : PT h) (ds : List (PT h)) : leafPages (d :: ds) = leafPages [d] ++ leafPages ds :=
  leafPages_append [d] ds

/-- The cells of the leaf where a key belongs. -/
def cellsAt (key : Int) : {h : Nat} → PT h → List Cell
  | 0, t => PLeaf.cells t
  | _ + 1, t => ((PNode.kids t)[bisectRight (PNode.keys t) key]?).elim [] fun c => cellsAt key c

theorem cellsAt_branch {p : Nat} {keys : List Int} {kids : List (PT h)} {c : PT h} (hc : kids[bisectRight keys key]? = some c) :
    (branch p keys kids).cellsAt key = c.cellsAt key := by
  change (kids[bisectRight keys key]?).elim [] (fun c => cellsAt key c) = _
  rw [hc]
  rfl

theorem cellsAt_subset : {h : Nat} → (t : PT h) → ∀ c ∈ t.cellsAt key, c ∈ cellsL [t]
  | 0, t => by
    obtain ⟨p, cells, l, rfl⟩ := exists_leaf t
    rw [cellsL_leaf]
    exact fun _ hc => hc
  | h + 1, t => by
    obtain ⟨p, keys, kids, rfl⟩ := exists_branch t
    intro x hx
    rcases hc : kids[bisectRight keys key]? with _ | c
    · change x ∈ (kids[bisectRight keys key]?).elim [] (fun c => cellsAt key c) at hx
      rw [hc] at hx
      cases hx
    · rw [cellsAt_branch hc] at hx
      rw [cellsL_branch]
      have hmem := cellsAt_subset c x hx
      rw [cellsL, leavesL, List.flatMap_singleton] at hmem
      obtain ⟨l, hl, hxl⟩ := List.mem_flatMap.1 hmem
      exact List.mem_flatMap.2 ⟨l, List.mem_flatMap.2 ⟨c, List.mem_of_getElem? hc, hl⟩, hxl⟩

/-- The list around an element. -/
theorem eq_around {α : Type} {l : List α} {i : Nat} {c : α} (hc : l[i]? = some c) : l = l.take i ++ [c] ++ l.drop (i + 1) := by
  obtain ⟨hlt, rfl⟩ := List.getElem?_eq_some_iff.1 hc
  rw [List.append_assoc, List.singleton_append, List.getElem_cons_drop, List.take_append_drop]

/-- The pages around a child. -/
theorem leafPages_around {kids : List (PT h)} {i : Nat} {c : PT h} (hc : kids[i]? = some c) :
    leafPages kids = leafPages (kids.take i) ++ leafPages [c] ++ leafPages (kids.drop (i + 1)) := by
  rw [← leafPages_append, ← leafPages_append, ← eq_around hc]

/-- A new leaf is on the next new page, and there is one only when the leaf with the new cell does not fit its page. -/
theorem put_leafPages : {h : Nat} → {t : PT h} → {g : Grown h} → put key value t n = .ok g →
    leafPages g.1.2 = leafPages [t] ∨
      ¬9 + cellsSize (cellsWith key value (t.cellsAt key)) ≤ pageSize ∧ OneMore (leafPages [t]) n (leafPages g.1.2)
  | 0, t, g, hg => by
    obtain ⟨p, cells, l, rfl⟩ := exists_leaf t
    rw [put_leaf] at hg
    split at hg
    · cases hg
    rcases putLeaf_eq_ok hg with ⟨-, rfl⟩ | ⟨first, hgt, -, rfl⟩
    · exact .inl (by rw [leafPages_leaf, leafPages_leaf])
    · refine .inr ⟨hgt, [p], [], List.cons_ne_nil _ _, by rw [leafPages_leaf]; rfl, ?_⟩
      rw [leafPages_cons, leafPages_leaf, leafPages_leaf]
  | h + 1, t, g, hg => by
    obtain ⟨p, keys, kids, rfl⟩ := exists_branch t
    rcases hc : kids[bisectRight keys key]? with _ | c
    · rw [put_branch_none hc] at hg
      cases hg
    rw [put_branch hc] at hg
    obtain ⟨r, hr, hg⟩ := bind_eq_ok.1 hg
    -- the children of the new node or nodes
    have hkids : leafPages g.1.2 =
        leafPages (kids.take (bisectRight keys key) ++ r.1.2 ++ kids.drop (bisectRight keys key + 1)) := by
      simp only at hg
      split at hg
      · obtain rfl := Except.ok.inj hg
        rw [leafPages_branch]
      · rcases putBranch_eq_ok hg with ⟨-, rfl⟩ | ⟨sep, -, -, rfl⟩
        · rw [leafPages_branch]
        · rw [leafPages_cons, leafPages_branch, leafPages_branch, ← leafPages_append, List.take_append_drop]
    rw [hkids, leafPages_append, leafPages_append, leafPages_branch, leafPages_around hc, cellsAt_branch hc]
    rcases put_leafPages hr with he | ⟨hgt, hmore⟩
    · exact .inl (by rw [he])
    · exact .inr ⟨hgt, hmore.context _ _⟩

theorem leafPages_replace : {h : Nat} → (t : PT h) → leafPages [t.replace key value] = leafPages [t]
  | 0, t => by
    obtain ⟨p, cells, l, rfl⟩ := exists_leaf t
    rfl
  | h + 1, t => by
    obtain ⟨p, keys, kids, rfl⟩ := exists_branch t
    change leafPages [branch p keys (kids.modify (bisectRight keys key) (replace key value))] = _
    rw [leafPages_branch, leafPages_branch]
    rcases hc : kids[bisectRight keys key]? with _ | c
    · rw [List.modify_eq_self (List.getElem?_eq_none_iff.1 hc)]
    · obtain ⟨hlt, hget⟩ := List.getElem?_eq_some_iff.1 hc
      rw [List.modify_eq_take_cons_drop hlt, hget, leafPages_append, leafPages_cons, leafPages_replace c, leafPages_around hc,
        List.append_assoc]

/-! ### Deletion -/

section Erase

variable {k : Int} {x y : PT h} {r : Pair h} {keys : List Int} {kids : List (PT h)} {i : Nat} {q : Pair h}

theorem borrowLeft_leafPages (hr : borrowLeft k x y = .ok r) : leafPages r.2 = leafPages [x, y] := by
  rcases h with _ | h
  · rw [borrowLeft] at hr
    split at hr
    · cases hr
    · obtain rfl := Except.ok.inj hr
      rfl
  · obtain ⟨lp, lk, lkids, rfl⟩ := exists_branch x
    obtain ⟨rp, rk, rkids, rfl⟩ := exists_branch y
    rw [borrowLeft] at hr
    split at hr
    swap
    · cases hr
    rename_i u m _ hm
    obtain rfl := Except.ok.inj hr
    change leafPages [branch lp lk.dropLast lkids.dropLast, branch rp (k :: rk) (m :: rkids)] = _
    have hlk : lkids = lkids.dropLast ++ [m] := (List.dropLast_append_getLast? m hm).symm
    rw [leafPages_cons, leafPages_branch, leafPages_branch, leafPages_cons (branch lp lk lkids), leafPages_branch, leafPages_branch,
      leafPages_cons m, ← List.append_assoc, ← leafPages_append, ← hlk]

theorem borrowRight_leafPages (hr : borrowRight k x y = .ok r) : leafPages r.2 = leafPages [x, y] := by
  rcases h with _ | h
  · rw [borrowRight] at hr
    split at hr
    · obtain rfl := Except.ok.inj hr
      rfl
    · cases hr
  · obtain ⟨lp, lk, lkids, rfl⟩ := exists_branch x
    obtain ⟨rp, rk, rkids, rfl⟩ := exists_branch y
    rw [borrowRight] at hr
    split at hr
    swap
    · cases hr
    rename_i u R m M _ hm
    obtain rfl := Except.ok.inj hr
    obtain rfl : rkids = m :: M := hm
    change leafPages [branch lp (lk ++ [k]) (lkids ++ [m]), branch rp R M] = _
    rw [leafPages_cons, leafPages_branch, leafPages_branch, leafPages_cons (branch lp lk lkids), leafPages_branch, leafPages_branch,
      leafPages_append, List.append_assoc, ← leafPages_cons]

theorem merge_leafPages (hr : merge k x y = .ok r) : Thins (leafPages [x, y]) (leafPages r.2) := by
  rcases h with _ | h
  · obtain ⟨lp, lc, ll, rfl⟩ := exists_leaf x
    obtain ⟨rp, rc, rl, rfl⟩ := exists_leaf y
    obtain rfl := Except.ok.inj hr
    exact (show OneMore [lp] rp [lp, rp] from ⟨[lp], [], List.cons_ne_nil _ _, rfl, rfl⟩).thins
  · obtain ⟨lp, lk, lkids, rfl⟩ := exists_branch x
    obtain ⟨rp, rk, rkids, rfl⟩ := exists_branch y
    obtain rfl := Except.ok.inj hr
    have he : leafPages [branch lp lk lkids, branch rp rk rkids] = leafPages [branch lp (lk ++ k :: rk) (lkids ++ rkids)] := by
      rw [leafPages_cons, leafPages_branch, leafPages_branch, leafPages_branch, leafPages_append]
    rw [he]
    exact Thins.refl _

theorem atPair_leafPages {f : Int → PT h → PT h → Except PyError (Pair h)}
    (hf : ∀ {k x y r}, f k x y = .ok r → Thins (leafPages [x, y]) (leafPages r.2)) (hq : atPair f keys kids i = .ok q) :
    Thins (leafPages kids) (leafPages q.2) := by
  obtain ⟨k, x, y, r, -, hx, hy, hr, rfl⟩ := atPair_eq_ok.1 hq
  have hold : leafPages kids = leafPages (kids.take i) ++ leafPages [x, y] ++ leafPages (kids.drop (i + 2)) := by
    have hdrop : leafPages (kids.drop (i + 1)) = leafPages [y] ++ leafPages (kids.drop (i + 2)) := by
      rw [← List.getElem_cons_drop (List.getElem?_eq_some_iff.1 hy).1, (List.getElem?_eq_some_iff.1 hy).2, leafPages_cons]
    rw [leafPages_around hx, hdrop, leafPages_cons x [y]]
    simp only [List.append_assoc]
  rw [hold, leafPages_append, leafPages_append]
  exact (hf hr).context _ _

theorem rebalance_leafPages (hq : rebalance keys kids i = .ok q) : Thins (leafPages kids) (leafPages q.2) := by
  rw [rebalance] at hq
  split at hq
  · exact atPair_leafPages (fun hr => by rw [borrowLeft_leafPages hr]; exact Thins.refl _) hq
  split at hq
  · exact atPair_leafPages (fun hr => by rw [borrowRight_leafPages hr]; exact Thins.refl _) hq
  · exact atPair_leafPages merge_leafPages hq

/-- Deletion takes pages out of the chain, and not the first. -/
theorem erase_leafPages : {h : Nat} → {t : PT h} → {r : PT h × Bool} → erase key t = .ok r → Thins (leafPages [t]) (leafPages [r.1])
  | 0, t, r, hr => by
    obtain ⟨p, cells, l, rfl⟩ := exists_leaf t
    rw [erase_leaf] at hr
    split at hr <;> obtain rfl := Except.ok.inj hr <;> exact Thins.refl [p]
  | h + 1, t, r, hr => by
    obtain ⟨p, keys, kids, rfl⟩ := exists_branch t
    rcases hc : kids[bisectRight keys key]? with _ | c
    · rw [erase_branch_none hc] at hr
      cases hr
    rw [erase_branch hc] at hr
    obtain ⟨⟨c', found⟩, hr', hr⟩ := bind_eq_ok.1 hr
    have hset : Thins (leafPages kids) (leafPages (kids.set (bisectRight keys key) c')) := by
      rw [List.set_eq_take_append_cons_drop, if_pos (List.getElem?_eq_some_iff.1 hc).1, leafPages_append, leafPages_cons,
        leafPages_around hc, ← List.append_assoc]
      exact (erase_leafPages hr').context _ _
    split at hr
    · obtain ⟨q, hq, hr⟩ := bind_eq_ok.1 hr
      obtain rfl := Except.ok.inj hr
      rw [leafPages_branch, leafPages_branch]
      exact hset.trans (rebalance_leafPages hq)
    · obtain rfl := Except.ok.inj hr
      rw [leafPages_branch, leafPages_branch]
      exact hset

end Erase

end PT

/-! ### Whole trees -/

namespace Tree

variable {key : Int} {value : Bytes} {t t' : Tree} {n m : Nat}

/-- Every leaf but the first is on a page that a link can name. -/
def Linkable (t : Tree) : Prop := ∀ p ∈ (PT.leafPages [t.2]).tail, p ≠ noPage

theorem put_leafPages (hput : t.put key value n = .ok (t', m)) : PT.leafPages [t'.2] = PT.leafPages [t.2] ∨
    ¬9 + cellsSize (PT.cellsWith key value (t.2.cellsAt key)) ≤ pageSize ∧ OneMore (PT.leafPages [t.2]) n (PT.leafPages [t'.2]) := by
  obtain ⟨g, hg, hput⟩ := bind_eq_ok.1 hput
  have hleaves : PT.leafPages [t'.2] = PT.leafPages g.1.2 := by
    split at hput
    · rename_i a ha
      cases Except.ok.inj hput
      rw [ha]
    · rename_i k a b hab
      cases Except.ok.inj hput
      rw [hab, PT.leafPages_branch]
    · cases hput
  rw [hleaves]
  exact PT.put_leafPages hg

/-- An insertion leaves a tree to be linked unless it splits a leaf when the next new page has the number of no page. -/
theorem Linkable.put (hl : t.Linkable) (hput : t.put key value n = .ok (t', m))
    (hn : n = noPage → 9 + cellsSize (PT.cellsWith key value (t.2.cellsAt key)) ≤ pageSize) : t'.Linkable := by
  intro p hp
  rcases put_leafPages hput with he | ⟨hgt, hmore⟩
  · exact hl p (he ▸ hp)
  · rcases hmore.mem_tail hp with rfl | hp
    · exact fun he => hgt (hn he)
    · exact hl p hp

theorem Linkable.replace (hl : t.Linkable) : (t.replace key value).Linkable := by
  intro p hp
  rw [Tree.replace, PT.leafPages_replace] at hp
  exact hl p hp

theorem leafPages_collapse : {h : Nat} → {t : PT h} → t.Legal → PT.leafPages [(Tree.collapse t).2] = PT.leafPages [t]
  | 0, _, _ => rfl
  | h + 1, t, hl => by
    obtain ⟨p, keys, kids, rfl⟩ := PT.exists_branch t
    have hlen := hl.legalKids.1.length_eq
    rcases keys with _ | ⟨k, keys⟩
    swap
    · rfl
    obtain ⟨c, rfl⟩ : ∃ c, kids = [c] := List.length_eq_one_iff.1 hlen
    rw [PT.leafPages_branch]
    exact leafPages_collapse (hl.legalKids.1.legal c (by simp))

theorem Linkable.erase {found : Bool} (hl : t.Linkable) (hlegal : t.Legal) (herase : t.erase key = .ok (t', found)) : t'.Linkable := by
  obtain ⟨⟨u, b⟩, hu, herase⟩ := bind_eq_ok.1 herase
  have hthin := PT.erase_leafPages hu
  have hlu := (PT.erase_legal hlegal hu).1
  obtain ⟨rfl, rfl⟩ := Prod.mk.inj (Except.ok.inj herase)
  intro p hp
  refine hl p (hthin.mem_tail ?_)
  cases b with
  | true =>
    rw [← leafPages_collapse hlu]
    exact hp
  | false => exact hp

end Tree

/-! ### The leaf of a key -/

section LeafOf

variable {ν : Type} [TreeLink ν] {s : Store ν}

/-- The cells of the leaf that the descent to `key` ends in. -/
def leafOf (s : Store ν) (root : Nat) (key : Int) : Except PyError (List Cell) := do
  match ← s.nodes (← scanStart s.nodes (some key) s.numPages root) with
  | .leaf cells _ => return cells
  | .internal _ _ => throw .attributeError

theorem scanStart_good (key : Int) : {h : Nat} → {lo hi : Option Int} → {t : PT h} → Good False s lo hi [] [t] → {fuel : Nat} → h < fuel →
    ∃ n next, scanStart s.nodes (some key) fuel t.page = .ok n ∧ s.nodes n = .ok (.leaf (t.cellsAt key) next)
  | 0, lo, hi, t, g, fuel, hf => by
    obtain ⟨p, cells, l, rfl⟩ := PT.exists_leaf t
    obtain ⟨fuel, rfl⟩ := Nat.exists_eq_add_of_lt hf
    obtain ⟨-, -, -, hs, -⟩ := g.of_leaf
    refine ⟨p, _, ?_, hs⟩
    rw [Nat.zero_add, scanStart, PT.page_leaf, hs]
    rfl
  | h + 1, lo, hi, t, g, fuel, hf => by
    obtain ⟨p, keys, kids, rfl⟩ := PT.exists_branch t
    obtain ⟨fuel, rfl⟩ : ∃ f, fuel = f + 1 := ⟨fuel - 1, by omega⟩
    obtain ⟨gk, hs, -, -⟩ := g.of_branch
    obtain ⟨ka, kb, ca, c, cb, hkeys, hkids, hla, hlb, hbis, -⟩ := gk.child key
    have hc : kids[bisectRight keys key]? = some c := by simp [hkids, hbis, hla]
    have hcp : (kids.map PT.page)[bisectRight keys key]? = some c.page := by rw [List.getElem?_map, hc, Option.map_some]
    rw [hkeys, hkids] at gk
    obtain ⟨n, next, hstart, hn⟩ := scanStart_good key (gk.segment hla hlb).1 (show h < fuel by omega)
    refine ⟨n, next, ?_, ?_⟩
    · rw [scanStart, PT.page_branch, hs]
      simp only [bind, Except.bind, childAt, hcp]
      exact hstart
    · rw [PT.cellsAt_branch hc]
      exact hn

theorem TreeAt.leafOf {t : Tree} (ht : TreeAt s t) (key : Int) : LeafDb.leafOf s t.root key = .ok (t.2.cellsAt key) := by
  obtain ⟨n, next, hstart, hn⟩ := scanStart_good key ht.good ht.height_lt
  rw [LeafDb.leafOf]
  change (scanStart s.nodes (some key) s.numPages t.2.page >>= _) = _
  rw [hstart]
  change (s.nodes n >>= _) = _
  rw [hn]
  rfl

end LeafOf

end LeafDb
