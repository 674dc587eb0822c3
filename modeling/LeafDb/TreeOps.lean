import LeafDb.TreeDelete

/-!
# The operations on a whole tree

`_rebalance` is a borrow or a merge of two neighbouring children, so it leaves the children of a node as
trees of the same kind (`Regrouped`). From it, by induction on the height, `_delete` removes the cell with
the key and nothing else (`does_deleteRec`). Separators need not ascend strictly here: that is what every
borrow keeps.
-/

namespace LeafDb

variable {ν : Type} [TreeLink ν] {h : Nat} {s : Store ν} {lo hi : Option Int} {keys : List Int} {kids : List (PT h)} {pn : Nat}

/-! ### Rebalancing -/

/-- A separator with the children on both sides of it. -/
theorem exists_pair {j : Nat} (hlen : kids.length = keys.length + 1) (hj : j + 1 < kids.length) :
    ∃ ka k kb ca x y cb, keys = ka ++ [k] ++ kb ∧ kids = ca ++ [x, y] ++ cb ∧ ka.length = j ∧ ca.length = j ∧
      kb.length = cb.length := by
  have hjk : j < keys.length := by omega
  refine ⟨keys.take j, keys[j], keys.drop (j + 1), kids.take j, kids[j], kids[j + 1], kids.drop (j + 2), ?_, ?_, ?_, ?_, ?_⟩
  · rw [List.append_assoc, List.singleton_append, List.getElem_cons_drop, List.take_append_drop]
  · rw [List.append_assoc, List.cons_append, List.singleton_append, List.getElem_cons_drop, List.getElem_cons_drop,
      List.take_append_drop]
  · rw [List.length_take, min_eq_left hjk.le]
  · rw [List.length_take, min_eq_left (by omega)]
  · rw [List.length_drop, List.length_drop]
    omega

/-- The parent `r` and the store `s'`, up to the page `pn` of the parent, after `_rebalance` of its children,
which is the step `f`. -/
def Regrouped (s : Store ν) (lo hi : Option Int) (pn : Nat) (kids : List (PT h)) (f : PT.Pair h → Prop) (r : BTree.Parent)
    (s' : Store ν) : Prop :=
  ∃ keys' kids', f (keys', kids') ∧ r = (keys', kids'.map PT.page) ∧ Rebalanced False s lo hi pn kids s' keys' kids'

/-- What rebalancing makes of the children can be written, and so can the parent. -/
def RebalanceFits (pn : Nat) (f : Except PyError (PT.Pair h)) : Prop :=
  ∀ r, f = .ok r → (∀ d ∈ r.2, d.Fits) ∧ (PT.branch pn r.1 r.2).Fits

section Around

variable {ka kb : List Int} {ca cb : List (PT h)} {f F : Except PyError (PT.Pair h)}

theorem RebalanceFits.step (hf : RebalanceFits pn F) (hF : F = f.map fun r => (ka ++ r.1 ++ kb, ca ++ r.2 ++ cb)) :
    StepFits pn ka kb ca cb f := by
  rintro r rfl
  obtain ⟨hd, hp⟩ := hf _ hF
  exact ⟨fun d hdm => hd d (by simp [hdm]), hp⟩

omit [TreeLink ν] in
theorem Fails.map {α β : Type} {f : Except PyError α} {g : α → β} (hf : Fails f) : Fails (f.map g) := by
  obtain ⟨e, rfl⟩ := hf
  exact ⟨e, rfl⟩

theorem Between.regrouped {k : Int} {x y : PT h} {r : BTree.Parent} {s' : Store ν} {H : Prop}
    (g : Good False s lo hi (ka ++ [k] ++ kb) (ca ++ [x, y] ++ cb)) (hla : ka.length = ca.length) (hlb : kb.length = cb.length)
    (hF : H → F = f.map fun r => (ka ++ r.1 ++ kb, ca ++ r.2 ++ cb))
    (hb : Between False s (ka.getLast?.or lo) (kb.head?.or hi) pn x y ka kb ca cb f r s') :
    Regrouped s lo hi pn (ca ++ [x, y] ++ cb) (fun p => H → F = .ok p) r s' := by
  obtain ⟨ms', ds', rfl, rfl, ⟨t, hst, hset, hg, hs⟩, hcells⟩ := hb
  obtain ⟨hg', hs'⟩ := (g.segment hla hlb).2 t ms' ds' hg hs
  refine ⟨_, _, hF, rfl, ⟨t, hst, hset, hg', hs'⟩, ?_⟩
  rw [PT.cellsL_append, PT.cellsL_append, PT.cellsL_append, PT.cellsL_append, hcells]

end Around

theorem canSpare_error {nd : Node ν} {e : PyError} (h : canSpare nd = .error e) : Abort (.raised e) := by
  rcases hs : nd.serializedSize with e' | size
  · rw [canSpare, hs] at h
    cases h
    exact serializedSize_error hs
  · rw [canSpare, hs] at h
    cases h

section Try

variable {i : Nat} {child : PT h} {H : Prop}

theorem does_tryLeft (g : Good False s lo hi keys kids) (hst : s.stale = []) (hc : kids[i]? = some child)
    (hl : H → ∀ d ∈ kids, d.Fits) (hfit : H → RebalanceFits pn (PT.rebalance keys kids i)) :
    Does (BTree.tryLeft pn (keys, kids.map PT.page) i child.page child.node) s
      (fun r s' => (r = none ∧ s' = s ∧ (H → ¬(i ≠ 0 ∧ (kids[i - 1]?).any PT.spare = true))) ∨
        ∃ p, r = some p ∧ Regrouped s lo hi pn kids (fun p => H → PT.rebalance keys kids i = .ok p) p s')
      fun e _ => Abort e ∧ (H → Fails (PT.rebalance keys kids i)) := by
  rw [BTree.tryLeft]
  split
  · rename_i hi0
    exact .inl ⟨rfl, rfl, fun _ h => h.1 hi0⟩
  rename_i hi0
  have hlt := (List.getElem?_eq_some_iff.1 hc).1
  obtain ⟨ka, k, kb, ca, x, y, cb, rfl, rfl, hka, hca, hlb⟩ := exists_pair (j := i - 1) g.kids.length_eq (by omega)
  have hla := hka.trans hca.symm
  obtain rfl : i = ka.length + 1 := by omega
  obtain rfl : child = y := by
    simpa [hla, eq_comm] using hc
  have hx : x ∈ ca ++ [x, child] ++ cb := by simp
  have hxj : (ca ++ [x, child] ++ cb)[ka.length + 1 - 1]? = some x := by simp [hla]
  have hpage : ((ca ++ [x, child] ++ cb).map PT.page)[ka.length + 1 - 1]? = some x.page := by simp [hla]
  rw [does_bind, does_at hpage, does_bind, does_load hst (g.load hx).2 (g.load hx).1, does_bind]
  refine does_lift (fun b hb => ?_) fun e he => ⟨canSpare_error he, fun hH => ?_⟩
  swap
  · cases (PT.Fits.canSpare (hl hH x hx)).symm.trans he
  have hspare : H → b = x.spare := fun hH => Except.ok.inj (hb.symm.trans (PT.Fits.canSpare (hl hH x hx)))
  split
  · rename_i hbt
    have hF : H → PT.rebalance (ka ++ [k] ++ kb) (ca ++ [x, child] ++ cb) (ka.length + 1) =
        (PT.borrowLeft k x child).map fun r => (ka ++ r.1 ++ kb, ca ++ r.2 ++ cb) := by
      intro hH
      rw [PT.rebalance, if_pos ⟨hi0, by rw [hxj, Option.any_some, ← hspare hH, hbt]⟩]
      exact PT.atPair_append hla
    rw [does_bind]
    refine (does_borrowFromLeft (g.segment hla hlb).1 hst (fun hf => hf.elim) fun hH => (hfit hH).step (hF hH)).mono
      (fun r s' hr => ?_) fun e _ he => ⟨he.1, fun hH => hF hH ▸ (he.2 hH).map⟩
    exact .inr ⟨r, rfl, hr.regrouped g hla hlb hF⟩
  · rename_i hbf
    refine .inl ⟨rfl, rfl, fun hH h => hbf ?_⟩
    have hany := h.2
    rw [hxj] at hany
    rw [hspare hH]
    exact hany

theorem does_tryRight (g : Good False s lo hi keys kids) (hst : s.stale = []) (hc : kids[i]? = some child)
    (hl : H → ∀ d ∈ kids, d.Fits) (hfit : H → RebalanceFits pn (PT.rebalance keys kids i))
    (hleft : H → ¬(i ≠ 0 ∧ (kids[i - 1]?).any PT.spare = true)) :
    Does (BTree.tryRight pn (keys, kids.map PT.page) i child.page child.node) s
      (fun r s' => (r = none ∧ s' = s ∧ (H → ¬(kids[i + 1]?).any PT.spare = true)) ∨
        ∃ p, r = some p ∧ Regrouped s lo hi pn kids (fun p => H → PT.rebalance keys kids i = .ok p) p s')
      fun e _ => Abort e ∧ (H → Fails (PT.rebalance keys kids i)) := by
  rw [BTree.tryRight]
  split
  swap
  · rename_i hlt
    rw [List.length_map] at hlt
    exact .inl ⟨rfl, rfl, fun _ => by simp [List.getElem?_eq_none (not_lt.1 hlt)]⟩
  rename_i hlt
  rw [List.length_map] at hlt
  obtain ⟨ka, k, kb, ca, x, y, cb, rfl, rfl, hka, hca, hlb⟩ := exists_pair (j := i) g.kids.length_eq hlt
  have hla := hka.trans hca.symm
  subst hka
  obtain rfl : child = x := by
    simpa [hla, eq_comm] using hc
  have hy : y ∈ ca ++ [child, y] ++ cb := by simp
  have hyj : (ca ++ [child, y] ++ cb)[ka.length + 1]? = some y := by simp [hla]
  have hpage : ((ca ++ [child, y] ++ cb).map PT.page)[ka.length + 1]? = some y.page := by simp [hla]
  rw [does_bind, does_at hpage, does_bind, does_load hst (g.load hy).2 (g.load hy).1, does_bind]
  refine does_lift (fun b hb => ?_) fun e he => ⟨canSpare_error he, fun hH => ?_⟩
  swap
  · cases (PT.Fits.canSpare (hl hH y hy)).symm.trans he
  have hspare : H → b = y.spare := fun hH => Except.ok.inj (hb.symm.trans (PT.Fits.canSpare (hl hH y hy)))
  split
  · rename_i hbt
    have hF : H → PT.rebalance (ka ++ [k] ++ kb) (ca ++ [child, y] ++ cb) ka.length =
        (PT.borrowRight k child y).map fun r => (ka ++ r.1 ++ kb, ca ++ r.2 ++ cb) := by
      intro hH
      rw [PT.rebalance, if_neg (hleft hH), if_pos (by rw [hyj, Option.any_some, ← hspare hH, hbt])]
      exact PT.atPair_append hla
    rw [does_bind]
    refine (does_borrowFromRight (g.segment hla hlb).1 hst fun hH => (hfit hH).step (hF hH)).mono
      (fun r s' hr => ?_) fun e _ he => ⟨he.1, fun hH => hF hH ▸ (he.2 hH).map⟩
    exact .inr ⟨r, rfl, hr.regrouped g hla hlb hF⟩
  · rename_i hbf
    refine .inl ⟨rfl, rfl, fun hH h => hbf ?_⟩
    rw [hyj] at h
    rw [hspare hH]
    exact h

/-- The merge at place `j`, when there are two children. -/
theorem does_merge (g : Good False s lo hi keys kids) (hst : s.stale = []) {j : Nat} {x y : PT h} (hx : kids[j]? = some x)
    (hy : kids[j + 1]? = some y) {F : Except PyError (PT.Pair h)} (hF : H → F = PT.atPair PT.merge keys kids j)
    (hfit : H → RebalanceFits pn F) :
    Does (BTree.mergeAt pn (keys, kids.map PT.page) j x.page x.node y.node) s
      (Regrouped s lo hi pn kids fun p => H → F = .ok p) fun e _ => Abort e ∧ (H → Fails F) := by
  have hlt := (List.getElem?_eq_some_iff.1 hy).1
  obtain ⟨ka, k, kb, ca, x', y', cb, rfl, rfl, hka, hca, hlb⟩ := exists_pair (j := j) g.kids.length_eq hlt
  have hla := hka.trans hca.symm
  subst hka
  obtain rfl : x = x' := by
    simpa [hla, eq_comm] using hx
  obtain rfl : y = y' := by
    simpa [hla, eq_comm] using hy
  have hF' := fun hH => (hF hH).trans (PT.atPair_append hla)
  exact (does_mergeAt (g.segment hla hlb).1 hst hla fun hH => (hfit hH).step (hF' hH)).mono
    (fun r s' hr => hr.regrouped g hla hlb hF') fun e _ he => ⟨he.1, fun hH => hF' hH ▸ (he.2 hH).map⟩

theorem does_rebalance (g : Good False s lo hi keys kids) (hst : s.stale = []) (hc : kids[i]? = some child)
    (hl : H → ∀ d ∈ kids, d.Fits) (hfit : H → RebalanceFits pn (PT.rebalance keys kids i)) :
    Does (BTree.rebalance pn (keys, kids.map PT.page) i) s
      (Regrouped s lo hi pn kids fun p => H → PT.rebalance keys kids i = .ok p)
      fun e _ => Abort e ∧ (H → Fails (PT.rebalance keys kids i)) := by
  have hpage : ∀ {j : Nat} {d : PT h}, kids[j]? = some d → (kids.map PT.page)[j]? = some d.page := by
    intro j d hd
    rw [List.getElem?_map, hd]
    rfl
  have hload : ∀ {j : Nat} {d : PT h}, kids[j]? = some d → _ := fun {j d} hd => g.load (List.mem_of_getElem? hd)
  rw [BTree.rebalance, does_bind, does_at (hpage hc), does_bind, does_load hst (hload hc).2 (hload hc).1, does_bind]
  refine (does_tryLeft g hst hc hl hfit).mono ?_ fun _ _ he => he
  rintro r s' (⟨rfl, rfl, hleft⟩ | ⟨p, rfl, hp⟩)
  swap
  · exact hp
  simp only
  rw [does_bind]
  refine (does_tryRight g hst hc hl hfit hleft).mono ?_ fun _ _ he => he
  rintro r s' (⟨rfl, rfl, hright⟩ | ⟨p, rfl, hp⟩)
  swap
  · exact hp
  -- neither sibling can spare a cell
  have hF : H → PT.rebalance keys kids i = PT.atPair PT.merge keys kids (i - 1) := by
    intro hH
    rw [PT.rebalance, if_neg (hleft hH), if_neg (hright hH)]
  simp only
  split
  · rename_i hi0
    subst hi0
    rcases hright : kids[1]? with _ | right
    · rw [does_bind, at?, List.getElem?_map, hright]
      refine ⟨⟨by simp, by simp⟩, fun hH => ?_⟩
      rw [hF hH, PT.atPair, hc, hright]
      split
      · rename_i h
        cases h
      · exact ⟨_, rfl⟩
    · rw [does_bind, does_at (hpage hright), does_bind, does_load hst (hload hright).2 (hload hright).1]
      exact does_merge g hst hc hright hF hfit
  · rename_i hi0
    obtain ⟨i, rfl⟩ := Nat.exists_eq_succ_of_ne_zero hi0
    obtain ⟨left, hleft⟩ : ∃ left, kids[i]? = some left := by
      have hlt := (List.getElem?_eq_some_iff.1 hc).1
      exact ⟨_, List.getElem?_eq_getElem (by omega)⟩
    rw [Nat.succ_sub_one, does_bind, does_at (hpage hleft), does_bind, does_load hst (hload hleft).2 (hload hleft).1]
    exact does_merge g hst hleft hc hF hfit

end Try

/-! ### Deletion -/

/-- What deletion makes of the tree `t`. -/
structure Erased (s : Store ν) (lo hi : Option Int) (key : Int) (t : PT h) (found : Bool) (s' : Store ν) (t' : PT h) : Prop where
  page : t'.page = t.page
  good : Good False s' lo hi [] [t']
  steps : Steps s s' [t] [t']
  stale : s'.stale = []
  cells : PT.cellsL [t'] = (PT.cellsL [t]).filter fun c => decide (c.1 ≠ key)
  found_iff : found = true ↔ ∃ v, (key, v) ∈ PT.cellsL [t]

theorem does_deleteLeaf {key : Int} {p l : Nat} {cells : List Cell} (g : Good False s lo hi [] [PT.leaf p cells l])
    (hst : s.stale = []) {fuel : Nat} :
    Does (BTree.deleteRec (fuel + 1) p key) s (fun r s' => ∃ t', Erased s lo hi key (PT.leaf p cells l) r s' t' ∧
        ((PT.leaf p cells l).Legal → PT.erase key (PT.leaf p cells l) = .ok (t', r)))
      fun e _ => Abort e ∧ ((PT.leaf p cells l).Legal → Fails (PT.erase key (PT.leaf p cells l))) := by
  obtain ⟨ha, hrange, hle, hs, hp⟩ := g.of_leaf
  rw [BTree.deleteRec, does_bind, does_load hst hp hs]
  obtain ⟨L, R, rfl, hi', hL, hR⟩ := exists_around ha key
  simp only
  rw [hi', List.getElem?_append_right le_rfl, Nat.sub_self]
  have hkeepL : L.filter (fun c => decide (c.1 ≠ key)) = L :=
    List.filter_eq_self.2 fun c hc => decide_eq_true (hL c hc).ne
  rcases hR with ⟨v, R', rfl, hR'⟩ | hR
  · -- the key is there
    have hkeepR : R'.filter (fun c => decide (c.1 ≠ key)) = R' :=
      List.filter_eq_self.2 fun c hc => decide_eq_true (hR' c hc).ne'
    have hstep : PT.erase key (PT.leaf p (L ++ (key, v) :: R') l) = .ok (PT.leaf p (L ++ R') l, true) := by
      rw [PT.erase_leaf, PT.hasKey_append hi', if_pos (by simp), hi', eraseIdx_middle]
    rw [if_pos (by simp), eraseIdx_middle, does_bind, does_mutate, does_bind]
    refine does_write_of (fun _ => ?_) fun e he => ⟨fits_error he, fun hl => ?_⟩
    swap
    · cases (PT.Fits.node_fits (PT.erase_legal hl hstep).1).symm.trans he
    rw [Store.set_of_mutate]
    have hsub : (L ++ R').Sublist (L ++ (key, v) :: R') := (List.Sublist.refl L).append (List.sublist_cons_self _ _)
    obtain ⟨hgood, hsteps⟩ := g.write_leaf (ha.sublist hsub) fun c hc => hrange c (hsub.subset hc)
    refine ⟨PT.leaf p (L ++ R') l, ⟨rfl, hgood, hsteps, by simp [Store.set, hst], ?_, ?_⟩, fun _ => hstep⟩
    · rw [PT.cellsL_leaf, PT.cellsL_leaf, List.filter_append, List.filter_cons_of_neg (by simp), hkeepL, hkeepR]
    · exact ⟨fun _ => ⟨v, by simp⟩, fun _ => rfl⟩
  · -- the key is not there
    have hkeepR : R.filter (fun c => decide (c.1 ≠ key)) = R :=
      List.filter_eq_self.2 fun c hc => decide_eq_true (hR c hc).ne'
    have hno : ¬(R[0]?).any (fun c => decide (c.1 = key)) = true := by
      rcases R with _ | ⟨c, R⟩
      · simp
      · have := hR c (by simp)
        simp only [List.getElem?_cons_zero, Option.any_some, decide_eq_true_eq]
        omega
    rw [if_neg hno]
    refine ⟨PT.leaf p (L ++ R) l, ⟨rfl, g, .refl _ _, hst, ?_, ?_⟩, fun _ => ?_⟩
    rotate_left 2
    · rw [PT.erase_leaf, PT.hasKey_append hi', List.head?_eq_getElem?, if_neg hno]
    · rw [PT.cellsL_leaf, List.filter_append, hkeepL, hkeepR]
    · simp only [PT.cellsL_leaf, Bool.false_eq_true, false_iff]
      rintro ⟨v, hv⟩
      rcases List.mem_append.1 hv with hv | hv
      · exact absurd (hL _ hv) (lt_irrefl _)
      · exact absurd (hR _ hv) (lt_irrefl _)

theorem underflow_error {nd : Node ν} {e : PyError} (h : underflow nd = .error e) : Abort (.raised e) := by
  rcases hs : nd.serializedSize with e' | size
  · suffices e' = e from this ▸ serializedSize_error hs
    rcases nd with ⟨cells, next⟩ | ⟨keys, children⟩ <;>
    · rw [underflow] at h
      split at h
      · cases h
      · rw [hs] at h
        exact Except.error.inj h
  · rcases nd with ⟨cells, next⟩ | ⟨keys, children⟩ <;>
    · rw [underflow] at h
      split at h
      · cases h
      · rw [hs] at h
        cases h

/-- The cells of a list of children follow from those of the child that changed. -/
theorem Erased.cells_around {s s' : Store ν} {lo hi : Option Int} {key : Int} {ca cb : List (PT h)} {c c' : PT h} {r : Bool}
    (hdel : Erased s lo hi key c r s' c') (hca : ∀ d ∈ PT.cellsL ca, d.1 < key) (hcb : ∀ d ∈ PT.cellsL cb, key < d.1) :
    PT.cellsL (ca ++ [c'] ++ cb) = (PT.cellsL (ca ++ [c] ++ cb)).filter (fun d => decide (d.1 ≠ key)) ∧
      (r = true ↔ ∃ v, (key, v) ∈ PT.cellsL (ca ++ [c] ++ cb)) := by
  simp only [PT.cellsL_append, List.filter_append, hdel.cells, hdel.found_iff, List.mem_append]
  refine ⟨?_, ⟨fun ⟨v, hv⟩ => ⟨v, .inl (.inr hv)⟩, fun ⟨v, hv⟩ => ⟨v, ?_⟩⟩⟩
  · rw [List.filter_eq_self.2 fun d hd => decide_eq_true (hca d hd).ne,
      List.filter_eq_self.2 fun d hd => decide_eq_true (hcb d hd).ne']
  · rcases hv with (hv | hv) | hv
    · exact absurd (hca _ hv) (lt_irrefl _)
    · exact hv
    · exact absurd (hcb _ hv) (lt_irrefl _)

theorem does_deleteRec : {h : Nat} → {s : Store ν} → {lo hi : Option Int} → {key : Int} → {t : PT h} →
    Good False s lo hi [] [t] → s.stale = [] → {fuel : Nat} → h < fuel →
    Does (BTree.deleteRec fuel t.page key) s
      (fun r s' => ∃ t', Erased s lo hi key t r s' t' ∧ (t.Legal → PT.erase key t = .ok (t', r)))
      fun e _ => Abort e ∧ (t.Legal → Fails (PT.erase key t))
  | 0, s, lo, hi, key, t, g, hst, fuel, hf => by
    obtain ⟨p, cells, l, rfl⟩ := PT.exists_leaf t
    obtain ⟨fuel, rfl⟩ := Nat.exists_eq_add_of_lt hf
    rw [Nat.zero_add]
    exact does_deleteLeaf g hst
  | h + 1, s, lo, hi, key, t, g, hst, fuel, hf => by
    obtain ⟨p, keys, kids, rfl⟩ := PT.exists_branch t
    obtain ⟨fuel, rfl⟩ : ∃ f, fuel = f + 1 := ⟨fuel - 1, by omega⟩
    obtain ⟨gk, hs, hp, hrange⟩ := g.of_branch
    obtain ⟨ka, kb, ca, c, cb, hkeys, hkids, hla, hlb, hbis, hka, hkb, hca, hcb⟩ := gk.child key
    have hc : (kids.map PT.page)[ka.length]? = some c.page := by simp [hkids, hla]
    rw [PT.page_branch, BTree.deleteRec, does_bind, does_load hst hrange hs]
    simp only
    rw [hbis, does_bind, does_at hc, does_bind]
    have gk' := gk
    rw [hkeys, hkids] at gk'
    obtain ⟨gc, hplug⟩ := gk'.segment hla hlb
    have hplace : kids[bisectRight keys key]? = some c := by simp [hkids, hbis, hla]
    have hlegal : (PT.branch p keys kids).Legal → c.Legal :=
      fun hl => hl.legalKids.1.legal c (List.mem_of_getElem? hplace)
    have hsetc : ∀ c' : PT h, kids.set ka.length c' = ca ++ [c'] ++ cb := by
      intro c'
      rw [hkids, hla, List.append_assoc, List.singleton_append, List.set_append_right _ _ le_rfl, Nat.sub_self]
      simp
    refine (does_deleteRec gc hst (by omega)).mono ?_ fun e _ he => ⟨he.1, fun hl => ?_⟩
    swap
    · obtain ⟨e', he'⟩ := he.2 (hlegal hl)
      rw [PT.erase_branch hplace, he']
      exact ⟨e', rfl⟩
    rintro r s' ⟨c', hdel, hstep⟩
    obtain ⟨hgood, hsteps⟩ := hplug _ _ _ hdel.good hdel.steps
    obtain ⟨hcells, hfound⟩ := hdel.cells_around hca hcb
    rw [← hkids] at hsteps hcells hfound
    rw [← hkeys] at hgood
    have hpages : (ca ++ [c'] ++ cb).map PT.page = kids.map PT.page := by simp [hkids, hdel.page]
    have herase : (PT.branch p keys kids).Legal → PT.erase key (PT.branch p keys kids) = (do
        if r && c'.under then
          let q ← PT.rebalance keys (ca ++ [c'] ++ cb) ka.length
          return (PT.branch p q.1 q.2, true)
        else return (PT.branch p keys (ca ++ [c'] ++ cb), r)) := by
      intro hl
      rw [PT.erase_branch hplace, hstep (hlegal hl)]
      simp only [hbis, hsetc, bind, Except.bind]
    -- the parent is not written
    have hkeep : (r && c'.under) = false ∨ ¬(PT.branch p keys kids).Legal →
        ∃ t', Erased s lo hi key (PT.branch p keys kids) r s' t' ∧
        ((PT.branch p keys kids).Legal → PT.erase key (PT.branch p keys kids) = .ok (t', r)) := by
      intro hr
      obtain ⟨hg, hs'⟩ := g.keep_parent hgood hsteps hpages
      refine ⟨PT.branch p keys (ca ++ [c'] ++ cb), ⟨rfl, hg, hs', hdel.stale,
        by rw [PT.cellsL_branch, PT.cellsL_branch, hcells], by rw [PT.cellsL_branch, hfound]⟩, fun hl => ?_⟩
      rw [herase hl, hr.resolve_right (not_not_intro hl)]
      rfl
    rcases r with _ | _
    · exact hkeep (.inl rfl)
    have hc' : c' ∈ ca ++ [c'] ++ cb := by simp
    have hload := hgood.load hc'
    rw [hdel.page] at hload
    have hlegal' : (PT.branch p keys kids).Legal → PT.LegalKids keys (ca ++ [c'] ++ cb) ∧ c'.Legal := by
      intro hl
      obtain ⟨hl', hp'⟩ := PT.erase_legal (hlegal hl) (hstep (hlegal hl))
      rw [← hsetc, ← hbis]
      exact ⟨hl.legalKids.1.set hplace hl' hp', hl'⟩
    simp only [if_true]
    rw [does_bind, does_load hdel.stale hload.2 hload.1, does_bind]
    refine does_lift (fun b hb => ?_) fun e he => ⟨underflow_error he, fun hl => ?_⟩
    swap
    · cases (PT.Fits.underflow (hlegal' hl).2.fits).symm.trans he
    have hunder : (PT.branch p keys kids).Legal → b = c'.under :=
      fun hl => Except.ok.inj (hb.symm.trans (PT.Fits.underflow (hlegal' hl).2.fits))
    split
    swap
    · rename_i hbf
      by_cases hl : (PT.branch p keys kids).Legal
      · exact hkeep (.inl (by rw [Bool.true_and, ← hunder hl]; exact Bool.eq_false_iff.2 hbf))
      · exact hkeep (.inr hl)
    rename_i hbt
    have hplace' : (ca ++ [c'] ++ cb)[ka.length]? = some c' := by simp [hla]
    have hfit : (PT.branch p keys kids).Legal → RebalanceFits p (PT.rebalance keys (ca ++ [c'] ++ cb) ka.length) := by
      intro hl q hq
      obtain ⟨hk, hl'⟩ := hlegal' hl
      obtain ⟨hk', hle⟩ := hk.rebalance hplace' (hl'.size_lt ((hunder hl).symm.trans hbt)) hq
      exact ⟨fun d hd => (hk'.legal d hd).fits, (hk'.branch (hle.trans hl.legalKids.2)).fits⟩
    have herase' : (PT.branch p keys kids).Legal → PT.erase key (PT.branch p keys kids) = (do
        let q ← PT.rebalance keys (ca ++ [c'] ++ cb) ka.length
        return (PT.branch p q.1 q.2, true)) := by
      intro hl
      rw [herase hl, if_pos (by rw [Bool.true_and, ← hunder hl, hbt])]
    rw [← hpages, does_bind]
    refine (does_rebalance hgood hdel.stale hplace' (fun hl d hd => ((hlegal' hl).1.legal d hd).fits) hfit).mono ?_
      fun e _ he => ⟨he.1, fun hl => ?_⟩
    swap
    · obtain ⟨e', he'⟩ := he.2 hl
      rw [herase' hl, he']
      exact ⟨e', rfl⟩
    rintro _ s'' ⟨keys'', kids'', hq, rfl, ⟨t, hst'', hset, hgood'', hsteps''⟩, hcells''⟩
    rw [does_bind]
    refine does_write_of (fun _ => ?_) fun e he => ⟨fits_error he, fun hl => ?_⟩
    swap
    · cases (PT.Fits.node_fits (hfit hl _ (hq hl)).2).symm.trans he
    rw [hset]
    obtain ⟨hg, hs'⟩ := g.write_parent hgood'' (hsteps.trans hsteps'')
    refine ⟨PT.branch p keys'' kids'', ⟨rfl, hg, hs', by simp [Store.set, hst''], ?_, by rw [PT.cellsL_branch, hfound]⟩,
      fun hl => ?_⟩
    · rw [PT.cellsL_branch, PT.cellsL_branch, hcells'', hcells]
    · rw [herase' hl, hq hl]
      rfl

/-! ### Overwriting -/

/-- The cells with the new value of a key. -/
def setValue (key : Int) (value : Bytes) (cells : List Cell) : List Cell :=
  cells.map fun c => if c.1 = key then (key, value) else c

theorem setValue_append (key : Int) (value : Bytes) (cells cells' : List Cell) :
    setValue key value (cells ++ cells') = setValue key value cells ++ setValue key value cells' :=
  List.map_append

theorem setValue_eq_self {key : Int} {value : Bytes} {cells : List Cell} (h : ∀ c ∈ cells, c.1 ≠ key) :
    setValue key value cells = cells := by
  rw [setValue, List.map_congr_left fun c hc => if_neg (h c hc), List.map_id']

/-- What overwriting the value of a key makes of the tree `t`. -/
structure Overwritten (s : Store ν) (lo hi : Option Int) (key : Int) (value : Bytes) (t : PT h) (s' : Store ν) (t' : PT h) :
    Prop where
  eq : t' = t.replace key value
  page : t'.page = t.page
  good : Good False s' lo hi [] [t']
  steps : Steps s s' [t] [t']
  stale : s'.stale = []
  cells : PT.cellsL [t'] = setValue key value (PT.cellsL [t])
  numPages : s'.numPages = s.numPages
  legal : t.Legal → value.length ≤ maxValueSize → t'.Legal

/-- `overwrite` of a key that is there changes its value. -/
theorem does_overwrite {root : Nat} : {h : Nat} → {s : Store ν} → {lo hi : Option Int} → {key : Int} → {value : Bytes} →
    {t : PT h} →
    Good False s lo hi [] [t] → s.stale = [] → (∃ v, (key, v) ∈ PT.cellsL [t]) → {fuel : Nat} → h < fuel →
    Does (BTree.overwrite root key value fuel t.page) s
      (fun r s' => r = root ∧ ∃ t', Overwritten s lo hi key value t s' t')
      fun e _ => Abort e ∧ (t.Legal → value.length ≤ maxValueSize → ¬(t.replace key value).Legal)
  | 0, s, lo, hi, key, value, t, g, hst, hkey, fuel, hf => by
    obtain ⟨p, cells, l, rfl⟩ := PT.exists_leaf t
    obtain ⟨fuel, rfl⟩ := Nat.exists_eq_add_of_lt hf
    obtain ⟨ha, hrange, hle, hs, hp⟩ := g.of_leaf
    obtain ⟨L, R, rfl, hi', hL, hR⟩ := exists_around ha key
    obtain ⟨v, R', rfl, hR'⟩ : ∃ v R', R = (key, v) :: R' ∧ ∀ c ∈ R', key < c.1 := by
      rcases hR with hR | hR
      · exact hR
      · obtain ⟨v, hv⟩ := hkey
        rw [PT.cellsL_leaf, List.mem_append] at hv
        exact hv.elim (fun hv => absurd (hL _ hv) (lt_irrefl _)) fun hv => absurd (hR _ hv) (lt_irrefl _)
    rw [Nat.zero_add, BTree.overwrite, PT.page_leaf, does_bind, does_load hst hp hs]
    have hcells : (L ++ (key, v) :: R').set L.length (key, value) = L ++ (key, value) :: R' := by simp
    have heq : PT.leaf p (L ++ (key, value) :: R') l = (PT.leaf p (L ++ (key, v) :: R') l).replace key value := by
      rw [← hcells, ← hi']
      rfl
    simp only
    rw [hi', does_bind, does_at (a := (key, v)) (by simp), does_bind, does_mutate, does_bind, hcells]
    refine does_write_of (fun hf => ?_) fun e he => ⟨fits_error he, fun hl hv hl' => ?_⟩
    swap
    · rw [← heq] at hl'
      cases (PT.Fits.node_fits (ν := ν) hl').symm.trans he
    rw [Store.set_of_mutate]
    have hasc : Ascending (L ++ (key, value) :: R') :=
      ascending_insert (ha.sublist ((List.Sublist.refl L).append (List.sublist_cons_self _ _))) hL hR'
    have hin : ∀ c ∈ L ++ (key, value) :: R', InRange lo hi c.1 := by
      intro c hc
      rcases List.mem_append.1 hc with hc | hc
      · exact hrange c (by simp [hc])
      · rcases List.mem_cons.1 hc with rfl | hc
        · exact hrange (key, v) (by simp)
        · exact hrange c (by simp [hc])
    obtain ⟨hgood, hsteps⟩ := g.write_leaf hasc hin
    refine ⟨rfl, _, heq, rfl, hgood, hsteps, by simp [Store.set, hst], ?_, Store.numPages_set hp.2, fun hl hv => ?_⟩
    · rw [PT.cellsL_leaf, PT.cellsL_leaf, setValue_append, setValue_eq_self fun c hc => (hL c hc).ne]
      have hR'' : setValue key value R' = R' := setValue_eq_self fun c hc => (hR' c hc).ne'
      rw [setValue] at hR'' ⊢
      rw [List.map_cons, hR'', if_pos rfl]
    · refine PT.fits_of_leaf hf fun c hc => ?_
      obtain ⟨⟨-, hcs⟩, -⟩ := PT.fits_leaf.1 hl
      rcases List.mem_append.1 hc with hc | hc
      · exact (hcs c (by simp [hc])).2
      · rcases List.mem_cons.1 hc with rfl | hc
        · exact hv
        · exact (hcs c (by simp [hc])).2
  | h + 1, s, lo, hi, key, value, t, g, hst, hkey, fuel, hf => by
    obtain ⟨p, keys, kids, rfl⟩ := PT.exists_branch t
    obtain ⟨fuel, rfl⟩ : ∃ f, fuel = f + 1 := ⟨fuel - 1, by omega⟩
    obtain ⟨gk, hs, hp, hrange⟩ := g.of_branch
    obtain ⟨ka, kb, ca, c, cb, hkeys, hkids, hla, hlb, hbis, hka, hkb, hca, hcb⟩ := gk.child key
    have hc : (kids.map PT.page)[ka.length]? = some c.page := by simp [hkids, hla]
    rw [PT.page_branch, BTree.overwrite, does_bind, does_load hst hrange hs]
    simp only
    rw [hbis, does_bind, does_at hc]
    have gk' := gk
    rw [hkeys, hkids] at gk'
    obtain ⟨gc, hplug⟩ := gk'.segment hla hlb
    have hkey' : ∃ v, (key, v) ∈ PT.cellsL [c] := by
      obtain ⟨v, hv⟩ := hkey
      rw [PT.cellsL_branch, hkids, PT.cellsL_append, PT.cellsL_append, List.mem_append, List.mem_append] at hv
      rcases hv with (hv | hv) | hv
      · exact absurd (hca _ hv) (lt_irrefl _)
      · exact ⟨v, hv⟩
      · exact absurd (hcb _ hv) (lt_irrefl _)
    have hplace : kids[bisectRight keys key]? = some c := by simp [hkids, hbis, hla]
    have hrep : (PT.branch p keys kids).replace key value = PT.branch p keys (ca ++ [c.replace key value] ++ cb) := by
      rw [hkids]
      exact PT.replace_branch (hbis.trans hla)
    refine (does_overwrite gc hst hkey' (by omega)).mono ?_ fun e _ he => ⟨he.1, fun hl hv hl' => ?_⟩
    swap
    · rw [hrep] at hl'
      exact he.2 (hl.legalKids.1.legal c (List.mem_of_getElem? hplace)) hv (hl'.legalKids.1.legal _ (by simp))
    rintro r s' ⟨rfl, c', heq, hpage, hgood, hsteps, hst', hcells, hnum, hlegal⟩
    obtain ⟨hgood, hsteps⟩ := hplug _ _ _ hgood hsteps
    rw [← hkids] at hsteps
    rw [← hkeys] at hgood
    obtain ⟨hg, hs'⟩ := g.keep_parent hgood hsteps (by simp [hkids, hpage])
    refine ⟨rfl, PT.branch p keys (ca ++ [c'] ++ cb), by rw [hrep, heq], rfl, hg, hs', hst', ?_, hnum, fun hl hv => ?_⟩
    · rw [PT.cellsL_branch, PT.cellsL_branch, hkids, PT.cellsL_append, PT.cellsL_append, hcells, PT.cellsL_append,
        PT.cellsL_append, setValue_append, setValue_append, setValue_eq_self fun d hd => (hca d hd).ne,
        setValue_eq_self fun d hd => (hcb d hd).ne']
    · obtain ⟨hk, hlen⟩ := hl.legalKids
      have hk' := hk.set hplace (hlegal (hk.legal c (List.mem_of_getElem? hplace)) hv) hpage
      have hset : kids.set (bisectRight keys key) c' = ca ++ [c'] ++ cb := by
        rw [hkids, hbis, hla, List.append_assoc, List.singleton_append, List.set_append_right _ _ le_rfl, Nat.sub_self]
        simp
      rw [hset] at hk'
      exact hk'.branch hlen

/-! ### A tree with its root -/

/-- A tree of any height. -/
abbrev Tree := Σ h, PT h

namespace Tree

def root (t : Tree) : Nat := t.2.page

def pages (t : Tree) : List Nat := PT.pagesL [t.2]

def cells (t : Tree) : List Cell := PT.cellsL [t.2]

/-- The link of the last leaf. -/
def lastLink (t : Tree) : Option Nat := (PT.leavesL [t.2]).getLast?.map PLeaf.link

theorem root_mem_pages (t : Tree) : t.root ∈ t.pages :=
  List.mem_flatMap.2 ⟨t.2, by simp, t.2.page_mem_pages⟩

end Tree

/-- The tree is stored in `s`, and its leaf chain ends. -/
structure TreeAt (s : Store ν) (t : Tree) : Prop where
  good : Good False s none none [] [t.2]
  lastLink : t.lastLink = some noPage

/-- What an operation on a tree does to the pages. -/
structure Moved (s s' : Store ν) (t t' : Tree) : Prop where
  pages : ∀ p ∈ t'.pages, p ∈ t.pages ∨ s.numPages ≤ p
  frame : ∀ p, p < s.numPages → p ∉ t.pages → s'.nodes p = s.nodes p
  numPages : s.numPages ≤ s'.numPages

/-- The operation left the tree `t'` in the place of `t`, with the root `root`. -/
def Left (s : Store ν) (t : Tree) (root : Nat) (s' : Store ν) : Prop :=
  ∃ t' : Tree, t'.root = root ∧ TreeAt s' t' ∧ Moved s s' t t' ∧ s'.stale = []

/-- A tree is not higher than there are pages. -/
theorem height_lt : {h : Nat} → {t : PT h} → {lo hi : Option Int} → PT.Bounded False lo hi t → h < t.pages.length
  | 0, t, _, _, _ => by simp [PT.pages]
  | h + 1, t, lo, hi, hb => by
    obtain ⟨c, cs, hi', hk, hc⟩ := Kids.head hb
    have := height_lt hc
    rw [PT.pages, hk, List.flatMap_cons, List.length_cons, List.length_append]
    omega

theorem Tree.pages_eq (t : Tree) : t.pages = t.2.pages := by
  simp [Tree.pages, PT.pagesL]

theorem TreeAt.length_pages_le {t : Tree} (ht : TreeAt s t) : t.pages.length ≤ s.numPages := by
  have hlen : t.pages.length ≤ (List.range s.numPages).length :=
    (ht.good.nodup.subperm fun p hp => List.mem_range.2 (ht.good.range p hp).2).length_le
  rwa [List.length_range] at hlen

theorem TreeAt.bounded {t : Tree} (ht : TreeAt s t) : PT.Bounded False none none t.2 := by
  rcases ht.good.kids with ⟨hb, -⟩
  exact hb

theorem TreeAt.height_lt {t : Tree} (ht : TreeAt s t) : t.1 < s.numPages :=
  (t.pages_eq ▸ LeafDb.height_lt ht.bounded).trans_le ht.length_pages_le

omit [TreeLink ν] in
theorem Steps.moved {s' : Store ν} {t t' : PT h} (hs : Steps s s' [t] [t']) : Moved s s' ⟨h, t⟩ ⟨h, t'⟩ :=
  ⟨hs.pages, hs.frame, hs.numPages⟩

/-- `upsert`: the key is inserted, or overwritten when it is there. -/
def BTree.upsert (fuel root : Nat) (key : Int) (value : Bytes) : EStateM Failure (Store ν) Nat := fun s =>
  match (BTree.insert fuel root key value).run s with
  | .error (.raised (.duplicateKey _)) s' => (BTree.overwrite root key value fuel root).run s'
  | r => r

omit [TreeLink ν] in
theorem Moved.trans {s' s'' : Store ν} {t t' t'' : Tree} (h : Moved s s' t t') (h' : Moved s' s'' t' t'') :
    Moved s s'' t t'' where
  pages p hp := by
    rcases h'.pages p hp with hp | hp
    · exact h.pages p hp
    · exact .inr (h.numPages.trans hp)
  frame p hlt hp := by
    have hp' : p ∉ t'.pages := fun hp' => by
      rcases h.pages p hp' with hp' | hp'
      · exact hp hp'
      · exact absurd hlt (not_lt.2 hp')
    rw [h'.frame p (hlt.trans_le h.numPages) hp', h.frame p hlt hp]
  numPages := h.numPages.trans h'.numPages

theorem Left.after {s' s'' : Store ν} {t t' : Tree} {root : Nat} (hm : Moved s s' t t') (hl : Left s' t' root s'') :
    Left s t root s'' := by
  obtain ⟨t'', hroot, ht, hm', hst⟩ := hl
  exact ⟨t'', hroot, ht, hm.trans hm', hst⟩

end LeafDb
