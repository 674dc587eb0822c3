import LeafDb.TreeFailures

/-!
# Occupancy

A leaf is split by the number of its cells, borrows one cell whatever its length, and is overwritten in place,
so where values differ in length each of these can leave it underfull. `TreeOp.Fits` bounds the lengths in the
leaf of the key, and in the neighbour that lends, before the operation; then no node but the root is underfull
(`Filled`). Internal nodes need no bound, because their entries have one size. Runs with values of one length
of at most 52 bytes stay within the bounds.
-/

namespace LeafDb

variable {ν : Type} [TreeLink ν] {h : Nat} {key : Int} {value : Bytes} {n : Nat}

namespace PT

/-- No node below the root is underfull. -/
def Filled : {h : Nat} → PT h → Prop
  | 0, _ => True
  | _ + 1, t => ∀ c ∈ PNode.kids t, c.under = false ∧ Filled c

theorem filled_branch {p : Nat} {keys : List Int} {kids : List (PT h)} :
    (branch p keys kids).Filled ↔ ∀ c ∈ kids, c.under = false ∧ Filled c := Iff.rfl

/-- A node is underfull when it is shorter than a third of a page. -/
theorem Legal.under_eq_false {t : PT h} (hl : t.Legal) : t.under = false ↔ minBytes ≤ t.size := by
  constructor
  · intro hu
    by_contra hlt
    have : t.under = true := by
      rcases h with _ | h
      · exact decide_eq_true (.inr (not_le.1 hlt))
      · exact decide_eq_true (.inr (not_le.1 hlt))
    rw [hu] at this
    cases this
  · intro hs
    rw [← Bool.not_eq_true]
    exact fun hu => absurd (hl.size_lt hu) (not_lt.2 hs)

/-! ### Insertion -/

/-- The leaf where the key belongs has room for the new cell, or its cells and the new one take a third of a page
on both sides of the middle one. -/
def HalvesFit (key : Int) (value : Bytes) : {h : Nat} → PT h → Prop
  | 0, t =>
    let cells := cellsWith key value (PLeaf.cells t)
    9 + cellsSize cells ≤ pageSize ∨
      minBytes ≤ 9 + cellsSize (cells.take (cells.length / 2)) ∧ minBytes ≤ 9 + cellsSize (cells.drop (cells.length / 2))
  | _ + 1, t => ∀ c, (PNode.kids t)[bisectRight (PNode.keys t) key]? = some c → HalvesFit key value c

theorem cellsSize_le_insertIdx (cells : List Cell) (i : Nat) (c : Cell) : cellsSize cells ≤ cellsSize (cells.insertIdx i c) := by
  induction cells generalizing i with
  | nil => exact Nat.zero_le _
  | cons d cells ih =>
    rcases i with _ | i
    · simp only [List.insertIdx_zero, cellsSize_cons]
      omega
    · have := ih i
      simp only [List.insertIdx_succ_cons, cellsSize_cons]
      omega

/-- Insertion leaves no short node, if it does not cut a short half from a leaf. -/
theorem put_filled : {h : Nat} → {t : PT h} → {g : Grown h} → t.Legal → t.HalvesFit key value → t.Filled →
    put key value t n = .ok g → (∀ d ∈ g.1.2, d.Legal) →
    (∀ d ∈ g.1.2, d.Filled) ∧ (g.1.1 ≠ [] ∨ t.under = false → ∀ d ∈ g.1.2, d.under = false)
  | 0, t, g, hl, hh, _, hg, hleg => by
    obtain ⟨p, cells, l, rfl⟩ := exists_leaf t
    refine ⟨fun _ _ => trivial, fun hu d hd => ?_⟩
    rw [(hleg d hd).under_eq_false]
    rw [put_leaf] at hg
    split at hg
    · cases hg
    rcases putLeaf_eq_ok hg with ⟨-, rfl⟩ | ⟨first, hgt, -, rfl⟩
    · obtain rfl := List.mem_singleton.1 hd
      have hs := hl.under_eq_false.1 (hu.resolve_left (by simp))
      exact hs.trans (Nat.add_le_add_left (cellsSize_le_insertIdx _ _ _) 9)
    · obtain ⟨h1, h2⟩ := hh.resolve_left hgt
      simp only [List.mem_cons, List.not_mem_nil, or_false] at hd
      rcases hd with rfl | rfl
      · exact h1
      · exact h2
  | h + 1, t, g, hl, hh, hf, hg, hleg => by
    obtain ⟨p, keys, kids, rfl⟩ := exists_branch t
    obtain ⟨hk, -⟩ := hl.legalKids
    obtain ⟨c, hc, hcm⟩ := hk.exists_child key
    rw [filled_branch] at hf
    rw [put_branch hc] at hg
    obtain ⟨⟨⟨seps, ds⟩, m⟩, hr, hg⟩ := bind_eq_ok.1 hg
    simp only at hg
    have hplace := (List.getElem?_eq_some_iff.1 hc).1
    have hlenk := hk.length_eq
    have hkl := bisectRight_le keys key
    -- the children, old and new
    have hkids : ∀ (P : PT h → Prop), (∀ d ∈ kids, P d) → (∀ d ∈ ds, P d) →
        ∀ d ∈ kids.take (bisectRight keys key) ++ ds ++ kids.drop (bisectRight keys key + 1), P d := by
      intro P h1 h2 d hd
      simp only [List.mem_append] at hd
      rcases hd with (hd | hd) | hd
      · exact h1 d (List.mem_of_mem_take hd)
      · exact h2 d hd
      · exact h1 d (List.mem_of_mem_drop hd)
    have hdsl : ∀ d ∈ ds, d.Legal := by
      have hmem : ∀ d ∈ ds, d ∈ kids.take (bisectRight keys key) ++ ds ++ kids.drop (bisectRight keys key + 1) :=
        fun d hd => by simp [hd]
      split at hg
      · obtain rfl := Except.ok.inj hg
        exact fun d hd => (hleg _ (List.mem_singleton.2 rfl)).legalKids.1.legal d (hmem d hd)
      · exact fun d hd => (putBranch_kids hg hleg d (hmem d hd)).1
    obtain ⟨ihf, ihu⟩ := put_filled (hk.legal c hcm) (hh c hc) (hf c hcm).2 hr hdsl
    have hnew := hkids (fun d => d.under = false ∧ d.Filled) hf
      fun d hd => ⟨ihu (.inr (hf c hcm).1) d hd, ihf d hd⟩
    have hlenkeys : (keys.take (bisectRight keys key) ++ seps ++ keys.drop (bisectRight keys key)).length =
        keys.length + seps.length := by
      simp only [List.length_append, List.length_take, List.length_drop]
      omega
    generalize kids.take (bisectRight keys key) ++ ds ++ kids.drop (bisectRight keys key + 1) = kids' at *
    generalize keys.take (bisectRight keys key) ++ seps ++ keys.drop (bisectRight keys key) = keys' at *
    have hone : (branch p keys' kids').Legal → (branch p keys kids).under = false → (branch p keys' kids').under = false := by
      intro hl' hu
      rw [hl'.under_eq_false]
      have hs := hl.under_eq_false.1 hu
      rw [size_branch] at hs ⊢
      have := hl'.legalKids.1.length_eq
      omega
    split at hg
    · obtain rfl := Except.ok.inj hg
      refine ⟨fun d hd => ?_, fun hu d hd => ?_⟩
      · rw [List.mem_singleton.1 hd]
        exact hnew
      · have hl' := hleg d hd
        rw [List.mem_singleton.1 hd] at hl' ⊢
        exact hone hl' (hu.resolve_left (by simp))
    · rcases putBranch_eq_ok hg with ⟨-, rfl⟩ | ⟨sep, hbig, -, rfl⟩
      · refine ⟨fun d hd => ?_, fun hu d hd => ?_⟩
        · rw [List.mem_singleton.1 hd]
          exact hnew
        · have hl' := hleg d hd
          rw [List.mem_singleton.1 hd] at hl' ⊢
          exact hone hl' (hu.resolve_left (by simp))
      · have h1 := hleg _ (List.mem_cons_self ..)
        have h2 := hleg _ (List.mem_cons_of_mem _ (List.mem_cons_self ..))
        have hl1 := h1.legalKids.1.length_eq
        have hl2 := h2.legalKids.1.length_eq
        simp only [List.length_take, List.length_drop] at hl1 hl2
        simp only [List.mem_cons, List.not_mem_nil, or_false, forall_eq_or_imp, forall_eq, filled_branch]
        refine ⟨⟨fun d hd => hnew d (List.mem_of_mem_take hd), fun d hd => hnew d (List.mem_of_mem_drop hd)⟩, fun _ => ⟨?_, ?_⟩⟩
        · rw [h1.under_eq_false, size_branch, minBytes, List.length_take, List.length_take]
          rw [pageSize] at hbig ⊢
          omega
        · rw [h2.under_eq_false, size_branch, minBytes, List.length_drop, List.length_drop]
          rw [pageSize] at hbig ⊢
          omega

/-! ### Overwriting -/

/-- The leaf where the key belongs, if it is not the root, has the bytes to spare that the new value is shorter
by than the old one. -/
def ValueFits (key : Int) (value : Bytes) : {h : Nat} → PT h → Prop
  | 0, _ => True
  | 1, t => ∀ c old, (PNode.kids t)[bisectRight (PNode.keys t) key]? = some c → (key, old) ∈ PLeaf.cells c →
      minBytes + old.length ≤ c.size + value.length
  | _ + 2, t => ∀ c, (PNode.kids t)[bisectRight (PNode.keys t) key]? = some c → ValueFits key value c

theorem exists_of_hasKey {cells : List Cell} (hkey : hasKey cells key = true) :
    ∃ old, cells[bisectLeft (cells.map Prod.fst) key]? = some (key, old) := by
  obtain ⟨⟨k, old⟩, hc, hk⟩ := (Option.any_eq_true _ _).1 hkey
  obtain rfl := of_decide_eq_true hk
  exact ⟨old, hc⟩

theorem cellsSize_set {cells : List Cell} {i : Nat} {c : Cell} (hc : cells[i]? = some c) (d : Cell) :
    cellsSize (cells.set i d) + c.2.length = cellsSize cells + d.2.length := by
  induction cells generalizing i with
  | nil => cases hc
  | cons b cells ih =>
    rcases i with _ | i
    · obtain rfl := Option.some.inj hc
      simp only [List.set_cons_zero, cellsSize_cons]
      omega
    · have := ih (i := i) hc
      simp only [List.set_cons_succ, cellsSize_cons]
      omega

theorem cellsSize_eraseIdx {cells : List Cell} {i : Nat} {c : Cell} (hc : cells[i]? = some c) :
    cellsSize (cells.eraseIdx i) + (12 + c.2.length) = cellsSize cells := by
  induction cells generalizing i with
  | nil => cases hc
  | cons b cells ih =>
    rcases i with _ | i
    · obtain rfl := Option.some.inj hc
      simp only [List.eraseIdx_cons_zero, cellsSize_cons]
      omega
    · have := ih (i := i) hc
      simp only [List.eraseIdx_cons_succ, cellsSize_cons]
      omega

theorem mem_kids_replace {p : Nat} {keys : List Int} {kids : List (PT h)} {d : PT h}
    (hd : d ∈ PNode.kids ((branch p keys kids).replace key value)) :
    d ∈ kids ∨ ∃ c, kids[bisectRight keys key]? = some c ∧ d = c.replace key value := by
  obtain ⟨i, hi⟩ := List.mem_iff_getElem?.1 hd
  change (kids.modify (bisectRight keys key) (replace key value))[i]? = some d at hi
  rw [List.getElem?_modify] at hi
  obtain ⟨c, hc, rfl⟩ := Option.map_eq_some_iff.1 hi
  split
  · rename_i he
    exact .inr ⟨c, he ▸ hc, rfl⟩
  · exact .inl (List.mem_of_getElem? hc)

theorem under_replace {t : PT (h + 1)} : (t.replace key value).under = t.under := by
  obtain ⟨p, keys, kids, rfl⟩ := exists_branch t
  have hlen : (kids.modify (bisectRight keys key) (replace key value)).length = kids.length := List.length_modify ..
  change (branch p keys (kids.modify (bisectRight keys key) (replace key value))).under = _
  rw [under_branch, under_branch, hlen]

theorem replace_filled : {h : Nat} → {t : PT h} → t.present key = true → t.ValueFits key value → (t.replace key value).Legal →
    t.Filled → (t.replace key value).Filled
  | 0, _, _, _, _, _ => trivial
  | 1, t, hkey, hv, hl, hf => by
    obtain ⟨p, keys, kids, rfl⟩ := exists_branch t
    intro d hd
    have hdl : d.Legal := hl.legalKids.1.legal d hd
    rcases mem_kids_replace hd with hd | ⟨c, hc, rfl⟩
    · exact hf d hd
    · refine ⟨hdl.under_eq_false.2 ?_, trivial⟩
      obtain ⟨q, cells, l, rfl⟩ := exists_leaf c
      rw [present_branch hc] at hkey
      obtain ⟨old, hold⟩ : ∃ old, cells[bisectLeft (cells.map Prod.fst) key]? = some (key, old) := exists_of_hasKey hkey
      have hlen := hv _ old hc (List.mem_of_getElem? hold)
      have hsize := cellsSize_set hold (key, value)
      simp only at hsize
      change minBytes ≤ 9 + cellsSize (cells.set (bisectLeft (cells.map Prod.fst) key) (key, value))
      rw [size_leaf] at hlen
      omega
  | h + 2, t, hkey, hv, hl, hf => by
    obtain ⟨p, keys, kids, rfl⟩ := exists_branch t
    intro d hd
    have hdl : d.Legal := hl.legalKids.1.legal d hd
    rcases mem_kids_replace hd with hd | ⟨c, hc, rfl⟩
    · exact hf d hd
    · obtain ⟨hu, hfc⟩ := hf c (List.mem_of_getElem? hc)
      rw [present_branch hc] at hkey
      exact ⟨under_replace.trans hu, replace_filled hkey (hv c hc) hdl hfc⟩

/-! ### Deletion -/

/-- The leaf `x` has a third of a page besides the cell `m`, which is long enough for the leaf `c` in the place of
a value of `n` bytes. -/
def Lends (x c : PT 0) (n : Nat) (m : Cell) : Prop :=
  minBytes + (12 + m.2.length) ≤ x.size ∧ minBytes + n ≤ c.size + m.2.length

/-- The neighbour that can spare a cell, for the leaf that is underfull without the key, lends one of a fitting
length: the left neighbour its last cell, the right one its first. -/
def LendsAt (key : Int) (keys : List Int) (kids : List (PT 0)) : Prop :=
  let i := bisectRight keys key
  ∀ c old, kids[i]? = some c → (key, old) ∈ PLeaf.cells c → c.size < minBytes + (12 + old.length) →
    (∀ x m, i ≠ 0 → kids[i - 1]? = some x → x.spare = true → (PLeaf.cells x).getLast? = some m → Lends x c old.length m) ∧
    ∀ y m, ¬(i ≠ 0 ∧ (kids[i - 1]?).any spare = true) → kids[i + 1]? = some y → y.spare = true →
      (PLeaf.cells y).head? = some m → Lends y c old.length m

/-- The leaf where the key belongs gets a cell of a fitting length, if it borrows one. -/
def LoanFits (key : Int) : {h : Nat} → PT h → Prop
  | 0, _ => True
  | 1, t => LendsAt key (PNode.keys t) (PNode.kids t)
  | _ + 2, t => ∀ c, (PNode.kids t)[bisectRight (PNode.keys t) key]? = some c → LoanFits key c

section Step

variable {k : Int} {x y : PT h} {r : Pair h}

theorem merge_size (hr : merge k x y = .ok r) (hx : x.Filled) (hy : y.Filled) :
    ∀ d ∈ r.2, (x.size ≤ d.size ∧ y.size ≤ d.size) ∧ d.Filled := by
  rcases h with _ | h
  · obtain ⟨lp, lc, ll, rfl⟩ := exists_leaf x
    obtain ⟨rp, rc, rl, rfl⟩ := exists_leaf y
    obtain rfl : r = ([], [leaf lp (lc ++ rc) rl]) := (Except.ok.inj hr).symm
    simp only [List.mem_cons, List.not_mem_nil, or_false, forall_eq, size_leaf, cellsSize_append]
    exact ⟨⟨by omega, by omega⟩, trivial⟩
  · obtain ⟨lp, lk, lkids, rfl⟩ := exists_branch x
    obtain ⟨rp, rk, rkids, rfl⟩ := exists_branch y
    obtain rfl : r = ([], [branch lp (lk ++ k :: rk) (lkids ++ rkids)]) := (Except.ok.inj hr).symm
    simp only [List.mem_cons, List.not_mem_nil, or_false, forall_eq, size_branch, List.length_append, List.length_cons,
      filled_branch, List.mem_append]
    exact ⟨⟨by omega, by omega⟩, fun c hc => hc.elim (hx c) (hy c)⟩

theorem borrowLeft_filled {x y : PT (h + 1)} {r : Pair (h + 1)} (hx : x.Legal) (hxs : x.spare = true) (hxf : x.Filled)
    (hyf : y.Filled) (hys : minBytes ≤ y.size + 12) (hr : borrowLeft k x y = .ok r) :
    ∀ d ∈ r.2, minBytes ≤ d.size ∧ d.Filled := by
  obtain ⟨lp, lk, lkids, rfl⟩ := exists_branch x
  obtain ⟨rp, rk, rkids, rfl⟩ := exists_branch y
  obtain ⟨L, u, M, m, rfl, rfl, -⟩ := exists_concat_of_spare hx hxs
  rw [borrowLeft_branch] at hr
  obtain rfl := Except.ok.inj hr
  rw [spare_eq_true, size_branch] at hxs
  rw [size_branch] at hys
  simp only [List.length_append, List.length_singleton] at hxs
  rw [filled_branch] at hxf hyf
  simp only [List.mem_cons, List.not_mem_nil, or_false, forall_eq_or_imp, forall_eq, filled_branch, size_branch, List.length_cons]
  exact ⟨⟨by omega, fun c hc => hxf c (by simp [hc])⟩, by omega, hxf m (by simp), hyf⟩

theorem borrowRight_filled {x y : PT (h + 1)} {r : Pair (h + 1)} (hy : y.Legal) (hs : y.spare = true) (hxf : x.Filled)
    (hyf : y.Filled) (hxs : minBytes ≤ x.size + 12) (hr : borrowRight k x y = .ok r) :
    ∀ d ∈ r.2, minBytes ≤ d.size ∧ d.Filled := by
  obtain ⟨lp, lk, lkids, rfl⟩ := exists_branch x
  obtain ⟨rp, rk, rkids, rfl⟩ := exists_branch y
  obtain ⟨u, R, m, M, rfl, rfl, -⟩ := exists_cons_of_spare hy hs
  obtain rfl : r = ([u], [branch lp (lk ++ [k]) (lkids ++ [m]), branch rp R M]) := (Except.ok.inj hr).symm
  rw [spare_eq_true, size_branch] at hs
  rw [size_branch] at hxs
  simp only [List.length_cons] at hs
  rw [filled_branch] at hxf hyf
  simp only [List.mem_cons, List.not_mem_nil, or_false, forall_eq_or_imp, forall_eq, filled_branch, size_branch,
    List.length_append, List.mem_append, List.length_singleton]
  exact ⟨⟨by omega, fun c hc => hc.elim (hxf c) fun hc => hc ▸ hyf m (by simp)⟩, by omega, fun c hc => hyf c (by simp [hc])⟩

end Step

theorem erase_not_found : {h : Nat} → {t t' : PT h} → t.Legal → erase key t = .ok (t', false) → t' = t
  | 0, t, t', _, hr => by
    obtain ⟨p, cells, l, rfl⟩ := exists_leaf t
    rw [erase_leaf] at hr
    split at hr
    · cases Except.ok.inj hr
    · exact (Prod.mk.inj (Except.ok.inj hr)).1.symm
  | h + 1, t, t', hl, hr => by
    obtain ⟨p, keys, kids, rfl⟩ := exists_branch t
    obtain ⟨hk, -⟩ := hl.legalKids
    obtain ⟨c, hc, hcm⟩ := hk.exists_child key
    rw [erase_branch hc] at hr
    obtain ⟨⟨c', found⟩, hr', hr⟩ := bind_eq_ok.1 hr
    split at hr
    · obtain ⟨q, -, hr⟩ := bind_eq_ok.1 hr
      cases Except.ok.inj hr
    · obtain ⟨rfl, rfl⟩ := Prod.mk.inj (Except.ok.inj hr)
      obtain ⟨hlt, rfl⟩ := List.getElem?_eq_some_iff.1 hc
      rw [erase_not_found (hk.legal _ hcm) hr', List.set_getElem_self]

/-- The step of `erase_filled`: the child is short by one entry at most. -/
theorem erase_filled_branch {t : PT (h + 1)} {r : PT (h + 1) × Bool} (hl : t.Legal) (hf : t.Filled) (hb : t.LoanFits key)
    (ih : ∀ c r', (PNode.kids t)[bisectRight (PNode.keys t) key]? = some c → erase key c = .ok r' →
      r'.1.Filled ∧ (h ≠ 0 → c.size ≤ r'.1.size + 12)) (hr : erase key t = .ok r) :
    r.1.Filled ∧ t.size ≤ r.1.size + 12 := by
  obtain ⟨p, keys, kids, rfl⟩ := exists_branch t
  obtain ⟨hk, -⟩ := hl.legalKids
  obtain ⟨c, hc, hcm⟩ := hk.exists_child key
  rw [filled_branch] at hf
  have hlen := hk.length_eq
  rw [erase_branch hc] at hr
  obtain ⟨⟨c', found⟩, hr', hr⟩ := bind_eq_ok.1 hr
  obtain ⟨hl', hp'⟩ := erase_legal (hk.legal c hcm) hr'
  have hset := hk.set hc hl' hp'
  have ih : c'.Filled ∧ (h ≠ 0 → c.size ≤ c'.size + 12) := ih c _ hc hr'
  split at hr
  · rename_i hu
    obtain ⟨hfound, hu⟩ := Bool.and_eq_true_iff.1 hu
    obtain ⟨q, hq, hr⟩ := bind_eq_ok.1 hr
    obtain rfl := Except.ok.inj hr
    have hlt := (List.getElem?_eq_some_iff.1 hc).1
    have hc' : (kids.set (bisectRight keys key) c')[bisectRight keys key]? = some c' := List.getElem?_set_self hlt
    have hother : ∀ {j}, j ≠ bisectRight keys key → (kids.set (bisectRight keys key) c')[j]? = kids[j]? :=
      fun hj => List.getElem?_set_ne (Ne.symm hj)
    obtain ⟨hkq, -⟩ := hset.rebalance hc' (hl'.size_lt hu) hq
    -- the other children as they were
    have hold : ∀ {j d}, j ≠ bisectRight keys key → (kids.set (bisectRight keys key) c')[j]? = some d →
        minBytes ≤ d.size ∧ d.Filled ∧ d.Legal := by
      intro j d hj hd
      rw [hother hj] at hd
      have hdm := List.mem_of_getElem? hd
      exact ⟨(hk.legal d hdm).under_eq_false.1 (hf d hdm).1, (hf d hdm).2, hk.legal d hdm⟩
    have hmerge : ∀ k x y r j, (kids.set (bisectRight keys key) c')[j]? = some x →
        (kids.set (bisectRight keys key) c')[j + 1]? = some y → (bisectRight keys key = j ∨ bisectRight keys key = j + 1) →
        merge k x y = .ok r → ∀ d ∈ r.2, minBytes ≤ d.size ∧ d.Filled := by
      rintro k x y r j hx hy (rfl | hj) hr d hd
      · obtain rfl := Option.some.inj (hc'.symm.trans hx)
        obtain ⟨hs, hyf, -⟩ := hold (by omega) hy
        obtain ⟨⟨-, hle⟩, hdf⟩ := merge_size hr ih.1 hyf d hd
        exact ⟨hs.trans hle, hdf⟩
      · rw [← hj] at hy
        obtain rfl := Option.some.inj (hc'.symm.trans hy)
        obtain ⟨hs, hxf, -⟩ := hold (by omega) hx
        obtain ⟨⟨hle, -⟩, hdf⟩ := merge_size hr hxf ih.1 d hd
        exact ⟨hs.trans hle, hdf⟩
    have hall : ∀ d ∈ q.2, minBytes ≤ d.size ∧ d.Filled := by
      rcases h with _ | h
      · -- the children are leaves
        obtain ⟨p', cells, l, rfl⟩ := exists_leaf c
        rw [erase_leaf] at hr'
        by_cases hkey : hasKey cells key = true
        swap
        · rw [if_neg hkey] at hr'
          rw [← (Prod.mk.inj (Except.ok.inj hr')).2] at hfound
          cases hfound
        rw [if_pos hkey] at hr'
        obtain ⟨rfl, -⟩ := Prod.mk.inj (Except.ok.inj hr')
        obtain ⟨old, hat⟩ := exists_of_hasKey hkey
        have hsize := cellsSize_eraseIdx hat
        simp only at hsize
        have hshort : (leaf p' cells l).size < minBytes + (12 + old.length) := by
          have := hl'.size_lt hu
          rw [size_leaf] at this ⊢
          omega
        obtain ⟨hgl, hgr⟩ := hb _ old hc (List.mem_of_getElem? hat) hshort
        refine rebalance_forall hc' (fun j d hj hd => ⟨(hold hj hd).1, trivial⟩) ?_ ?_ hmerge hq
        · intro k x r hi0 hx hs hr
          rw [hother (by omega)] at hx
          obtain ⟨lp, lc, ll, rfl⟩ := exists_leaf x
          rcases List.eq_nil_or_concat lc with rfl | ⟨L, m, rfl⟩
          · cases hr
          rw [List.concat_eq_append] at hx hs hr
          obtain ⟨h1, h2⟩ := hgl _ m hi0 hx hs List.getLast?_concat
          rw [borrowLeft_leaf] at hr
          obtain rfl := Except.ok.inj hr
          rw [size_leaf, cellsSize_append, cellsSize_cons, cellsSize_nil] at h1
          rw [size_leaf] at h2
          simp only [List.mem_cons, List.not_mem_nil, or_false, forall_eq_or_imp, forall_eq, size_leaf, cellsSize_cons]
          exact ⟨⟨by omega, trivial⟩, by omega, trivial⟩
        · intro k y r hleft hy hs hr
          rw [hother (by omega)] at hy
          have hleft' : ¬(bisectRight keys key ≠ 0 ∧ (kids[bisectRight keys key - 1]?).any spare = true) := by
            rintro ⟨hi0, hany⟩
            exact hleft ⟨hi0, by rw [hother (by omega)]; exact hany⟩
          obtain ⟨rp, rc, rl, rfl⟩ := exists_leaf y
          rcases rc with _ | ⟨m, _ | ⟨f, R⟩⟩
          · cases hr
          · cases hr
          obtain ⟨h1, h2⟩ := hgr _ m hleft' hy hs rfl
          obtain rfl := (Except.ok.inj hr).symm
          rw [size_leaf, cellsSize_cons] at h1
          rw [size_leaf] at h2
          simp only [List.mem_cons, List.not_mem_nil, or_false, forall_eq_or_imp, forall_eq]
          refine ⟨⟨?_, trivial⟩, ?_, trivial⟩
          · change minBytes ≤ 9 + cellsSize (cells.eraseIdx (bisectLeft (cells.map Prod.fst) key) ++ [m])
            rw [cellsSize_append, cellsSize_cons, cellsSize_nil]
            omega
          · rw [size_leaf]
            omega
      · have hsize : minBytes ≤ c'.size + 12 :=
          ((hk.legal c hcm).under_eq_false.1 (hf c hcm).1).trans (ih.2 (Nat.succ_ne_zero h))
        refine rebalance_forall hc' (fun j d hj hd => ⟨(hold hj hd).1, (hold hj hd).2.1⟩) ?_ ?_ hmerge hq
        · intro k x r hi0 hx hs hr
          obtain ⟨-, hxf, hxl⟩ := hold (by omega) hx
          exact borrowLeft_filled hxl hs hxf ih.1 hsize hr
        · intro k y r _ hy hs hr
          obtain ⟨-, hyf, hyl⟩ := hold (by omega) hy
          exact borrowRight_filled hyl hs ih.1 hyf hsize hr
    refine ⟨fun d hd => ⟨(hkq.legal d hd).under_eq_false.2 (hall d hd).1, (hall d hd).2⟩, ?_⟩
    have hle := length_rebalance_le hq
    have hlen' := hkq.length_eq
    rw [size_branch, size_branch]
    omega
  · rename_i hu
    obtain rfl := Except.ok.inj hr
    constructor
    · intro d hd
      rcases List.mem_or_eq_of_mem_set hd with hd | rfl
      · exact hf d hd
      · rcases found with _ | _
        · rw [erase_not_found (hk.legal c hcm) hr']
          exact hf c hcm
        · exact ⟨Bool.not_eq_true _ ▸ hu, ih.1⟩
    · rw [size_branch, size_branch, List.length_set]
      exact Nat.le_add_right _ _

/-- Deletion leaves no short node, if it does not borrow a cell of the wrong length; an internal node loses one
entry at most. -/
theorem erase_filled : {h : Nat} → {t : PT h} → {r : PT h × Bool} → t.Legal → t.Filled → t.LoanFits key →
    erase key t = .ok r → r.1.Filled ∧ (h ≠ 0 → t.size ≤ r.1.size + 12)
  | 0, _, _, _, _, _, _ => ⟨trivial, fun hn => absurd rfl hn⟩
  | 1, t, r, hl, hf, hb, hr => by
    obtain ⟨h1, h2⟩ := erase_filled_branch hl hf hb (fun _ _ _ _ => ⟨trivial, fun hn => absurd rfl hn⟩) hr
    exact ⟨h1, fun _ => h2⟩
  | h + 2, t, r, hl, hf, hb, hr => by
    obtain ⟨h1, h2⟩ := erase_filled_branch hl hf hb (fun c r' hc hr' => by
      obtain ⟨p, keys, kids, rfl⟩ := exists_branch t
      have hcm : c ∈ kids := List.mem_of_getElem? hc
      exact erase_filled (hl.legalKids.1.legal c hcm) (hf c hcm).2 (hb c hc) hr') hr
    exact ⟨h1, fun _ => h2⟩

end PT

/-! ### Runs -/

namespace TreeOp

/-- The lengths of the values fit the operation: an insertion finds room or two halves of a third of a page, an
overwriting shortens its leaf by what the leaf can spare, and a deletion that borrows finds a neighbour whose cell
fits. -/
def FitsIn (t : Tree) : TreeOp → Prop
  | insert key value => t.2.HalvesFit key value
  | upsert key value => if t.2.present key then t.2.ValueFits key value else t.2.HalvesFit key value
  | delete key => t.2.LoanFits key

/-- The lengths of the values in the tree at `s.2` fit the operation. -/
def Fits (s : Store ν × Nat) (op : TreeOp) : Prop := ∀ t : Tree, TreeAt s.1 t → t.root = s.2 → op.FitsIn t

end TreeOp

section Run

variable {s s' : Store ν} {root : Nat} {t : Tree}

theorem SoundTree.insert_filled (hs : SoundTree s root t) (hf : t.2.Filled) (hh : t.2.HalvesFit key value) {t' : Tree} {m : Nat}
    (hput : t.put key value n = .ok (t', m)) (hl : t'.Legal) : t'.2.Filled := by
  obtain ⟨g, hg, hr⟩ := bind_eq_ok.1 hput
  split at hr
  · rename_i a hga
    obtain ⟨rfl, -⟩ := Prod.mk.inj (Except.ok.inj hr)
    have := (PT.put_filled hs.legal hh hf hg (by rw [hga]; exact fun d hd => List.mem_singleton.1 hd ▸ hl)).1
    rw [hga] at this
    exact this a (by simp)
  · rename_i k a b hga
    obtain ⟨rfl, -⟩ := Prod.mk.inj (Except.ok.inj hr)
    obtain ⟨h1, h2⟩ := PT.put_filled hs.legal hh hf hg (by rw [hga]; exact hl.legalKids.1.legal)
    rw [hga] at h1 h2
    exact fun d hd => ⟨h2 (.inl (List.cons_ne_nil _ _)) d hd, h1 d hd⟩
  · cases hr

theorem Tree.collapse_filled {h : Nat} {t : PT h} (hf : t.Filled) : (Tree.collapse t).2.Filled := by
  induction h with
  | zero => trivial
  | succ h ih =>
    obtain ⟨p, keys, kids, rfl⟩ := PT.exists_branch t
    rcases keys with _ | ⟨k, keys⟩ <;> rcases kids with _ | ⟨c, kids⟩
    · exact hf
    · exact ih (hf c (List.mem_cons_self ..)).2
    · exact hf
    · exact hf

theorem SoundTree.makes_filled {op : TreeOp} (hs : SoundTree s root t) (hf : t.2.Filled) (hfits : op.Fits (s, root)) {t' : Tree}
    (hl : t'.Legal) (hmakes : op.Makes s.numPages t t') : t'.2.Filled := by
  have hfits := hfits t hs.tree hs.root
  rcases op with ⟨key, value⟩ | ⟨key, value⟩ | key
  · obtain ⟨-, m, hput⟩ := hmakes
    exact hs.insert_filled hf hfits hput hl
  · rw [TreeOp.FitsIn] at hfits
    rcases hmakes with ⟨hkey, rfl, -⟩ | ⟨hno, -, m, hput⟩
    · rw [if_pos hkey] at hfits
      exact PT.replace_filled hkey hfits hl hf
    · rw [hno] at hfits
      exact hs.insert_filled hf hfits hput hl
  · obtain ⟨-, found, herase⟩ := hmakes
    obtain ⟨⟨t'', found'⟩, hr', hr⟩ := bind_eq_ok.1 herase
    have hf' := (PT.erase_filled hs.legal hf hfits hr').1
    obtain ⟨rfl, -⟩ := Prod.mk.inj (Except.ok.inj hr)
    rcases found' with _ | _
    · exact hf'
    · exact Tree.collapse_filled hf'

/-- In a run whose operations meet fitting lengths no node but the root is ever underfull. -/
theorem occupancy {s₀ : Store ν} {root₀ : Nat} {ops : List TreeOp} (hstart : Start s₀ root₀)
    (hrun : Run TreeOp.step (fun s op => op.Legal ∧ op.Fits s) (s₀, root₀) ops (s, root)) :
    ∃ t, TreeAt s t ∧ t.root = root ∧ t.2.Filled := by
  have hinv := Run.invariant (P := fun s => ∃ t, SoundTree s.1 s.2 t ∧ t.2.Filled) ?_ hrun
    ⟨⟨0, PT.leaf root₀ [] noPage⟩, hstart.sound, trivial⟩
  · obtain ⟨t, hs, hf⟩ := hinv
    exact ⟨t, hs.tree, hs.root, hf⟩
  · rintro _ op _ ⟨t, hs, hf⟩ ⟨hop, hfits⟩ hstep
    obtain ⟨t', hs', hmakes⟩ := hs.step_makes hop hstep
    exact ⟨t', hs', hs.makes_filled hf hfits hs'.legal hmakes⟩

section Witness

theorem SoundTree.fits {op : TreeOp} (hs : SoundTree s root t) (hop : op.FitsIn t) : op.Fits (s, root) := by
  intro t' ht' hr
  rwa [ht'.unique hs.tree (hr.trans hs.root.symm)]

theorem SoundTree.step_delete (hs : SoundTree s root t) (hn : ¬t.2.Starves key) :
    ∃ s' root', TreeOp.step (s, root) (.delete key) = some (s', root') := by
  obtain ⟨r, s', hrun⟩ := hs.delete_returns.2 hn
  have hexec : TreeOp.exec s.numPages root (.delete key) s = .ok r.1 s' := by
    rw [TreeOp.exec, TreeM.run_bind]
    exact Exec.bind_eq_ok.2 ⟨_, _, hrun, rfl⟩
  refine ⟨s', r.1, ?_⟩
  rw [TreeOp.step]
  simp only [hexec]

variable {v w x : Bytes}

/-- A leaf with room for one more cell behind its only one. -/
theorem put_twoLeaves_last (hv : v.length = 2048) (hw : w.length = 1400) : (twoLeaves v).put 3 w 4 =
    .ok (⟨1, PT.branch 3 [2] [PT.leaf 1 [(1, v)] 2, PT.leaf 2 [(2, v), (3, w)] noPage]⟩, 4) := by
  have hi : bisectRight [2] 3 = 1 := by decide
  have hleaf : PT.put 3 w (PT.leaf 2 [(2, v)] noPage) 4 = .ok (([], [PT.leaf 2 [(2, v), (3, w)] noPage]), 4) :=
    put_last (by simp) (by simp [hv, hw, pageSize])
  have hc : [PT.leaf 1 [(1, v)] 2, PT.leaf 2 [(2, v)] noPage][bisectRight [2] 3]? = some (PT.leaf 2 [(2, v)] noPage) := by
    rw [hi]
    rfl
  rw [Tree.put]
  change (PT.put 3 w (PT.branch 3 [2] [PT.leaf 1 [(1, v)] 2, PT.leaf 2 [(2, v)] noPage]) 4 >>= _) = _
  rw [PT.put_branch hc, hleaf, hi]
  rfl

theorem legal_lender (hv : v.length = 2048) (hw : w.length = 1400) :
    Tree.Legal ⟨1, PT.branch 3 [2] [PT.leaf 1 [(1, v)] 2, PT.leaf 2 [(2, v), (3, w)] noPage]⟩ := by
  have h64 : ∀ k : Int, 0 ≤ k ∧ k < 100 → IsI64 k := fun k => isI64_of_small
  have hmax : v.length ≤ maxValueSize := hv.trans_le (by decide)
  refine PT.LegalKids.branch ⟨rfl, by simpa using h64 2 (by omega), ?_, by simp⟩ (by simp)
  simp only [List.mem_cons, List.not_mem_nil, or_false, forall_eq_or_imp, forall_eq]
  refine ⟨PT.fits_leaf.2 ⟨⟨by decide, ?_⟩, by simp [hv, pageSize]⟩, PT.fits_leaf.2 ⟨⟨by decide, ?_⟩, by simp [hv, hw, pageSize]⟩⟩
  · simpa using ⟨h64 1 (by omega), hmax⟩
  · simpa using ⟨⟨h64 2 (by omega), hmax⟩, h64 3 (by omega), hw.trans_le (by decide)⟩

theorem halvesFit_last {p l : Nat} {cells : List Cell} (hc : ∀ c ∈ cells, c.1 < key)
    (hs : 9 + cellsSize (cells ++ [(key, value)]) ≤ pageSize) : (PT.leaf p cells l).HalvesFit key value := by
  refine .inl ?_
  change 9 + cellsSize (PT.cellsWith key value cells) ≤ pageSize
  rwa [PT.cellsWith_last hc]

/-- Two long values make two halves of a leaf. -/
theorem halvesFit_long (hv : v.length = 2048) {p l : Nat} : (PT.leaf p [(1, v)] l).HalvesFit 2 v := by
  refine .inr ?_
  have hcells : PT.cellsWith 2 v [(1, v)] = [(1, v), (2, v)] := PT.cellsWith_last (by simp)
  change minBytes ≤ 9 + cellsSize ((PT.cellsWith 2 v [(1, v)]).take ((PT.cellsWith 2 v [(1, v)]).length / 2)) ∧
    minBytes ≤ 9 + cellsSize ((PT.cellsWith 2 v [(1, v)]).drop ((PT.cellsWith 2 v [(1, v)]).length / 2))
  rw [hcells]
  simp [hv, minBytes, pageSize]

theorem halvesFit_twoLeaves (hv : v.length = 2048) (hw : w.length = 1400) : (twoLeaves v).2.HalvesFit 3 w := by
  have hi : bisectRight [2] 3 = 1 := by decide
  intro c hc
  change [PT.leaf 1 [(1, v)] 2, PT.leaf 2 [(2, v)] noPage][bisectRight [2] 3]? = some c at hc
  rw [hi] at hc
  obtain rfl := Option.some.inj hc
  exact halvesFit_last (by simp) (by simp [hv, hw, pageSize])

/-- The new value of the first leaf is 548 bytes shorter; the leaf has 704 bytes more than it needs. -/
theorem valueFits_lender (hv : v.length = 2048) (hx : x.length = 1500) (b : PT 0) :
    (PT.branch 3 [2] [PT.leaf 1 [(1, v)] 2, b]).ValueFits 1 x := by
  have hi : bisectRight [2] 1 = 0 := by decide
  intro c old hc hold
  change [PT.leaf 1 [(1, v)] 2, b][bisectRight [2] 1]? = some c at hc
  rw [hi] at hc
  obtain rfl := Option.some.inj hc
  obtain ⟨-, rfl⟩ := Prod.mk.inj (List.mem_singleton.1 hold)
  simp [hv, hx, minBytes, pageSize]

/-- The first leaf, underfull without its cell, borrows one of the two cells of the other. -/
theorem loanFits_lender (hv : v.length = 2048) (hw : w.length = 1400) (hx : x.length = 1500) :
    (PT.branch 3 [2] [PT.leaf 1 [(1, x)] 2, PT.leaf 2 [(2, v), (3, w)] noPage]).LoanFits 1 := by
  have hi : bisectRight [2] 1 = 0 := by decide
  change PT.LendsAt 1 [2] [PT.leaf 1 [(1, x)] 2, PT.leaf 2 [(2, v), (3, w)] noPage]
  rw [PT.LendsAt, hi]
  intro c old hc hold _
  obtain rfl := Option.some.inj hc
  obtain ⟨-, rfl⟩ := Prod.mk.inj (List.mem_singleton.1 hold)
  refine ⟨fun _ _ hne => absurd rfl hne, fun y m _ hy _ hm => ?_⟩
  obtain rfl := Option.some.inj hy
  obtain rfl := Option.some.inj hm
  simp [PT.Lends, hv, hw, hx, minBytes, pageSize]

theorem not_starves_lender : ¬(PT.branch 3 [2] [PT.leaf 1 [(1, x)] 2, PT.leaf 2 [(2, v), (3, w)] noPage]).Starves 1 := by
  have hi : bisectRight [2] 1 = 0 := by decide
  change ¬PT.StarvesAt 1 [2] [PT.leaf 1 [(1, x)] 2, PT.leaf 2 [(2, v), (3, w)] noPage]
  rw [PT.StarvesAt, hi]
  rintro ⟨-, -, y, hy, -, hone⟩
  obtain rfl := Option.some.inj hy
  cases hone

/-- The second value goes to a new leaf, the third beside it; the first is overwritten by a shorter one, and its
leaf borrows the second when it is deleted. -/
theorem occupancy_lender : ∃ s root, Run TreeOp.step (fun s op => op.Legal ∧ op.Fits s) (emptyStore, 1)
    [.insert 1 longValue, .insert 2 longValue, .insert 3 (List.replicate 1400 0), .upsert 1 (List.replicate 1500 0), .delete 1]
    (s, root) ∧ ∃ t, TreeAt s t ∧ t.root = root ∧ t.2.Filled := by
  have hv := length_longValue
  have hw : (List.replicate 1400 0 : Bytes).length = 1400 := List.length_replicate
  have hx : (List.replicate 1500 0 : Bytes).length = 1500 := List.length_replicate
  generalize longValue = v at hv ⊢
  generalize (List.replicate 1400 0 : Bytes) = w at hw ⊢
  generalize (List.replicate 1500 0 : Bytes) = x at hx ⊢
  have h64 : ∀ k : Int, 0 ≤ k ∧ k < 100 → IsI64 k := fun k => isI64_of_small
  have hmax : v.length ≤ maxValueSize := hv.trans_le (by decide)
  have hmax' : w.length ≤ maxValueSize := hw.trans_le (by decide)
  have hmax'' : x.length ≤ maxValueSize := hx.trans_le (by decide)
  obtain ⟨s₁, hstep₁, hs₁, hn₁⟩ := start_emptyStore.sound.step_insert_last (h64 1 (by omega)) hmax (by simp)
    (by simp [hv, pageSize])
  obtain ⟨s₂, hstep₂, hs₂, hn₂⟩ := hs₁.step_insert (h64 2 (by omega)) hmax (by simp [Tree.cells])
    (by rw [hn₁]; exact put_twoLeaves hv 2) (legal_twoLeaves hv (by decide))
  change SoundTree s₂ 3 (twoLeaves v) at hs₂
  obtain ⟨s₃, hstep₃, hs₃, -⟩ := hs₂.step_insert (h64 3 (by omega)) hmax' (fun u => by simp [twoLeaves, mem_cells_twoLeaves 2])
    (by rw [hn₂]; exact put_twoLeaves_last hv hw) (legal_lender hv hw)
  have hkey : ∃ u, ((1 : Int), u) ∈ Tree.cells ⟨1, PT.branch 3 [2] [PT.leaf 1 [(1, v)] 2, PT.leaf 2 [(2, v), (3, w)] noPage]⟩ :=
    ⟨v, by simp [Tree.cells, PT.cellsL, PT.leavesL]⟩
  have hroom := (PT.replace_legal_iff hs₃.legal (h64 1 (by omega)) hmax'').2 (roomFor_first (by omega) _)
  obtain ⟨s₄, hstep₄, hs₄⟩ := hs₃.step_upsert hmax'' hkey hroom
  rw [replace_first] at hs₄
  obtain ⟨s₅, root, hstep₅⟩ := hs₄.step_delete not_starves_lender
  have hfits₁ : TreeOp.Fits (emptyStore, 1) (.insert 1 v) :=
    start_emptyStore.sound.fits (halvesFit_last (by simp) (by simp [hv, pageSize]))
  have hfits₂ : TreeOp.Fits (s₁, 1) (.insert 2 v) := hs₁.fits (halvesFit_long hv)
  have hfits₃ : TreeOp.Fits (s₂, 3) (.insert 3 w) := hs₂.fits (halvesFit_twoLeaves hv hw)
  have hfits₄ : TreeOp.Fits (s₃, 3) (.upsert 1 x) := hs₃.fits (by
    rw [TreeOp.FitsIn, if_pos (hs₃.tree.good.present_iff.2 hkey)]
    exact valueFits_lender hv hx _)
  have hfits₅ : TreeOp.Fits (s₄, 3) (.delete 1) := hs₄.fits (loanFits_lender hv hw hx)
  have hrun : Run TreeOp.step (fun s op => op.Legal ∧ op.Fits s) (emptyStore, 1)
      [.insert 1 v, .insert 2 v, .insert 3 w, .upsert 1 x, .delete 1] _ := .cons ⟨⟨h64 1 (by omega), hmax⟩, hfits₁⟩ hstep₁ <|
    .cons ⟨⟨h64 2 (by omega), hmax⟩, hfits₂⟩ hstep₂ <| .cons ⟨⟨h64 3 (by omega), hmax'⟩, hfits₃⟩ hstep₃ <|
      .cons ⟨⟨h64 1 (by omega), hmax''⟩, hfits₄⟩ hstep₄ <| .cons ⟨h64 1 (by omega), hfits₅⟩ hstep₅ (.nil _)
  exact ⟨s₅, root, hrun, occupancy start_emptyStore hrun⟩

end Witness

/-! ### Values of one length -/

theorem cellsSize_of_length {n : Nat} {cells : List Cell} (hc : ∀ c ∈ cells, c.2.length = n) :
    cellsSize cells = cells.length * (12 + n) := by
  induction cells with
  | nil => simp
  | cons c cells ih =>
    rw [cellsSize_cons, ih fun c hcm => hc c (List.mem_cons_of_mem _ hcm), hc c (List.mem_cons_self ..), List.length_cons]
    ring

namespace PT

variable {t : PT h}

/-- The values of the tree are of one length. -/
def OneLength (n : Nat) (t : PT h) : Prop := ∀ c ∈ cellsL [t], c.2.length = n

theorem OneLength.kid {p : Nat} {keys : List Int} {kids : List (PT h)} (ht : (branch p keys kids).OneLength n) {c : PT h}
    (hc : c ∈ kids) : c.OneLength n := by
  intro d hd
  refine ht d ?_
  rw [cellsL_branch]
  simp only [cellsL, leavesL, List.flatMap_cons, List.flatMap_nil, List.append_nil, List.mem_flatMap] at hd ⊢
  obtain ⟨l, hl, hd⟩ := hd
  exact ⟨l, ⟨c, hc, hl⟩, hd⟩

theorem OneLength.leaf {t : PT 0} (ht : t.OneLength n) {c : Cell} (hc : c ∈ PLeaf.cells t) : c.2.length = n :=
  ht c (by
    obtain ⟨p, cells, l, rfl⟩ := exists_leaf t
    rwa [cellsL_leaf])

theorem OneLength.halvesFit : {h : Nat} → {t : PT h} → t.OneLength n → n ≤ 52 → value.length = n → t.HalvesFit key value
  | 0, t, ht, hn, hv => by
    obtain ⟨p, cells, l, rfl⟩ := exists_leaf t
    have hcells : ∀ c ∈ cellsWith key value cells, c.2.length = n := by
      intro c hc
      have hi := bisectLeft_le (cells.map Prod.fst) key
      rw [List.length_map] at hi
      rcases (List.mem_insertIdx hi).1 hc with rfl | hc
      · exact hv
      · exact ht.leaf hc
    change 9 + cellsSize (cellsWith key value cells) ≤ pageSize ∨
      minBytes ≤ 9 + cellsSize ((cellsWith key value cells).take ((cellsWith key value cells).length / 2)) ∧
        minBytes ≤ 9 + cellsSize ((cellsWith key value cells).drop ((cellsWith key value cells).length / 2))
    generalize cellsWith key value cells = cells at hcells
    rw [cellsSize_of_length hcells, cellsSize_of_length fun c hc => hcells c (List.mem_of_mem_take hc),
      cellsSize_of_length fun c hc => hcells c (List.mem_of_mem_drop hc), List.length_take, List.length_drop]
    -- a half has at most one cell less than the other
    have hhalf : cells.length ≤ 2 * (cells.length / 2) + 1 := by omega
    have hsize := Nat.mul_le_mul_right (12 + n) hhalf
    have hrest := Nat.mul_le_mul_right (12 + n) (show cells.length / 2 ≤ cells.length - cells.length / 2 by omega)
    rw [min_eq_left (Nat.div_le_self ..), minBytes, pageSize]
    rw [Nat.add_mul, Nat.mul_assoc] at hsize
    omega
  | h + 1, t, ht, hn, hv => by
    obtain ⟨p, keys, kids, rfl⟩ := exists_branch t
    exact fun c hc => (ht.kid (List.mem_of_getElem? hc)).halvesFit hn hv

theorem OneLength.valueFits : {h : Nat} → {t : PT h} → t.OneLength n → value.length = n → t.Legal → t.Filled → t.ValueFits key value
  | 0, _, _, _, _, _ => trivial
  | 1, t, ht, hv, hl, hf => by
    obtain ⟨p, keys, kids, rfl⟩ := exists_branch t
    intro c old hc hold
    have hcm : c ∈ kids := List.mem_of_getElem? hc
    have hlen : old.length = n := (ht.kid hcm).leaf hold
    have hsize := (hl.legalKids.1.legal c hcm).under_eq_false.1 (hf c hcm).1
    omega
  | h + 2, t, ht, hv, hl, hf => by
    obtain ⟨p, keys, kids, rfl⟩ := exists_branch t
    intro c hc
    have hcm : c ∈ kids := List.mem_of_getElem? hc
    exact (ht.kid hcm).valueFits hv (hl.legalKids.1.legal c hcm) (hf c hcm).2

theorem OneLength.loanFits : {h : Nat} → {t : PT h} → t.OneLength n → n ≤ 52 → t.Legal → t.Filled → t.LoanFits key
  | 0, _, _, _, _, _ => trivial
  | 1, t, ht, hn, hl, hf => by
    obtain ⟨p, keys, kids, rfl⟩ := exists_branch t
    intro c old hc hold _
    have hcm : c ∈ kids := List.mem_of_getElem? hc
    have hold : old.length = n := (ht.kid hcm).leaf hold
    have hsize := (hl.legalKids.1.legal c hcm).under_eq_false.1 (hf c hcm).1
    -- a leaf that can spare is 64 bytes over a third of a page
    have hlends : ∀ x m, x ∈ kids → x.spare = true → m ∈ PLeaf.cells x → Lends x c old.length m := by
      intro x m hx hs hm
      have hm := (ht.kid hx).leaf hm
      rw [spare_eq_true] at hs
      exact ⟨by omega, by omega⟩
    exact ⟨fun x m _ hx hs hm => hlends x m (List.mem_of_getElem? hx) hs (List.mem_of_getLast? hm),
      fun y m _ hy hs hm => hlends y m (List.mem_of_getElem? hy) hs (List.mem_of_head? hm)⟩
  | h + 2, t, ht, hn, hl, hf => by
    obtain ⟨p, keys, kids, rfl⟩ := exists_branch t
    intro c hc
    have hcm : c ∈ kids := List.mem_of_getElem? hc
    exact (ht.kid hcm).loanFits hn (hl.legalKids.1.legal c hcm) (hf c hcm).2

end PT

/-- The value that the operation gives to its key. -/
def TreeOp.written : TreeOp → Option Bytes
  | insert _ value | upsert _ value => some value
  | delete _ => none

theorem SoundTree.fits_of_oneLength {op : TreeOp} (hs : SoundTree s root t) (hf : t.2.Filled) (ht : t.2.OneLength n) (hn : n ≤ 52)
    (hv : ∀ v ∈ op.written, v.length = n) : op.Fits (s, root) := by
  refine hs.fits ?_
  rcases op with ⟨key, value⟩ | ⟨key, value⟩ | key
  · exact ht.halvesFit hn (hv value rfl)
  · rw [TreeOp.FitsIn]
    split
    · exact ht.valueFits (hv value rfl) hs.legal hf
    · exact ht.halvesFit hn (hv value rfl)
  · exact ht.loanFits hn hs.legal hf

theorem TreeOp.Makes.oneLength {op : TreeOp} {m : Nat} {t' : Tree} (hmakes : op.Makes m t t') (ht : t.2.OneLength n)
    (hv : ∀ v ∈ op.written, v.length = n) : t'.2.OneLength n := by
  have hadds : ∀ {key value}, (∀ v ∈ some value, v.length = n) → Adds key value t.cells t'.cells → t'.2.OneLength n := by
    intro key value hv hadds c hc
    rcases (hadds.2 c).1 hc with rfl | hc
    · exact hv value rfl
    · exact ht c hc
  rcases op with ⟨key, value⟩ | ⟨key, value⟩ | key
  · exact hadds hv hmakes.1
  · rcases hmakes with ⟨-, -, hcells⟩ | ⟨-, h, -⟩
    · rintro ⟨k, w⟩ hc
      rw [show PT.cellsL [t'.2] = t'.cells from rfl, hcells, mem_setValue] at hc
      rcases hc with ⟨-, hc⟩ | ⟨-, rfl, -⟩
      · exact ht _ hc
      · exact hv w rfl
    · exact hadds hv h
  · intro c hc
    rw [show PT.cellsL [t'.2] = t'.cells from rfl, hmakes.1] at hc
    exact ht c (List.mem_of_mem_filter hc)

/-- Values of one length of at most 52 bytes leave no node but the root underfull. -/
theorem occupancy_of_oneLength {s₀ : Store ν} {root₀ : Nat} {ops : List TreeOp} (hn : n ≤ 52) (hstart : Start s₀ root₀)
    (hrun : Run TreeOp.step (fun _ op => op.Legal ∧ ∀ v ∈ op.written, v.length = n) (s₀, root₀) ops (s, root)) :
    ∃ t, TreeAt s t ∧ t.root = root ∧ t.2.Filled := by
  have hinv := Run.invariant (P := fun s => ∃ t, SoundTree s.1 s.2 t ∧ t.2.Filled ∧ t.2.OneLength n) ?_ hrun
    ⟨⟨0, PT.leaf root₀ [] noPage⟩, hstart.sound, trivial, by simp [PT.OneLength]⟩
  · obtain ⟨t, hs, hf, -⟩ := hinv
    exact ⟨t, hs.tree, hs.root, hf⟩
  · rintro _ op _ ⟨t, hs, hf, ht⟩ ⟨hop, hv⟩ hstep
    obtain ⟨t', hs', hmakes⟩ := hs.step_makes hop hstep
    exact ⟨t', hs', hs.makes_filled hf (hs.fits_of_oneLength hf ht hn hv) hs'.legal hmakes, hmakes.oneLength ht hv⟩

/-- Two long values, and the first one is overwritten by the empty value: a leaf of 21 bytes. -/
theorem not_occupancy : ∃ s, TreeRuns (emptyStore, 1) [.insert 1 longValue, .insert 2 longValue, .upsert 1 []] (s, 3) ∧
    ∃ t, TreeAt s t ∧ t.root = 3 ∧ ¬t.2.Filled := by
  have hlen := length_longValue
  generalize longValue = v at hlen ⊢
  obtain ⟨s, hrun, hs, -⟩ := run_twoLeaves hlen
  have hk : IsI64 1 := isI64_of_small (by omega)
  have hlegal := (PT.replace_legal_iff hs.legal hk (by decide)).2 (roomFor_first (w := []) (by decide) _)
  obtain ⟨s', hstep, hs'⟩ := hs.step_upsert (by decide) ⟨v, (mem_cells_twoLeaves 2).2 (.inl rfl)⟩ hlegal
  rw [twoLeaves, replace_first] at hs'
  refine ⟨s', Run.append hrun (Run.single ⟨hk, by decide⟩ hstep), _, hs'.tree, rfl, fun hf => ?_⟩
  have := (hf _ (List.mem_cons_self ..)).1
  cases this

end Run

end LeafDb
