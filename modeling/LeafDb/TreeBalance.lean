import LeafDb.TreeValue

/-!
# When deletion fails

Between runs every internal node has a separator (`Keyed`). Then one step of deletion can fail: an underfull
leaf borrows from its right sibling, which can spare a cell by its bytes, but has no other (`Starves`).
-/

namespace LeafDb.PT

variable {h : Nat} {key : Int}

/-- Every internal node has a separator. -/
def Keyed : {h : Nat} → PT h → Prop
  | 0, _ => True
  | _ + 1, t => PNode.keys t ≠ [] ∧ ∀ c ∈ PNode.kids t, Keyed c

/-- Every internal node but the root has a separator. -/
def KeyedBelow : {h : Nat} → PT h → Prop
  | 0, _ => True
  | _ + 1, t => ∀ c ∈ PNode.kids t, Keyed c

@[simp] theorem keyed_leaf (t : PT 0) : Keyed t := trivial

theorem keyed_branch {p : Nat} {keys : List Int} {kids : List (PT h)} :
    (branch p keys kids).Keyed ↔ keys ≠ [] ∧ ∀ c ∈ kids, Keyed c := Iff.rfl

theorem keyedBelow_branch {p : Nat} {keys : List Int} {kids : List (PT h)} :
    (branch p keys kids).KeyedBelow ↔ ∀ c ∈ kids, Keyed c := Iff.rfl

theorem Keyed.below {t : PT h} (hk : t.Keyed) : t.KeyedBelow := by
  rcases h with _ | h
  · trivial
  · exact hk.2

/-- A leaf that takes a cell from its right sibling, which has no other. -/
def StarvesAt (key : Int) (keys : List Int) (kids : List (PT 0)) : Prop :=
  let i := bisectRight keys key
  (∃ c, kids[i]? = some c ∧ hasKey (PLeaf.cells c) key = true ∧
    (leaf c.page ((PLeaf.cells c).eraseIdx (bisectLeft ((PLeaf.cells c).map Prod.fst) key)) (PLeaf.link c)).under = true) ∧
  ¬(i ≠ 0 ∧ (kids[i - 1]?).any spare = true) ∧ ∃ y, kids[i + 1]? = some y ∧ y.spare = true ∧ (PLeaf.cells y).length = 1

/-- The leaf where the key belongs takes a cell from its right sibling, which has no other. -/
def Starves (key : Int) : {h : Nat} → PT h → Prop
  | 0, _ => False
  | 1, t => StarvesAt key (PNode.keys t) (PNode.kids t)
  | _ + 2, t => ∃ c, (PNode.kids t)[bisectRight (PNode.keys t) key]? = some c ∧ Starves key c

/-! ### One step -/

section Step

variable {k : Int} {x y : PT h} {r : Pair h}

theorem spare_eq_true {t : PT h} : t.spare = true ↔ minBytes + 64 < t.size := decide_eq_true_iff

theorem exists_concat_of_spare {p : Nat} {keys : List Int} {kids : List (PT h)} (hl : (branch p keys kids).Legal)
    (hs : (branch p keys kids).spare = true) :
    ∃ L u M m, keys = L ++ [u] ∧ kids = M ++ [m] ∧ L ≠ [] := by
  rw [spare_eq_true, size_branch, minBytes, pageSize] at hs
  obtain ⟨hk, -⟩ := hl.legalKids
  have hlen := hk.length_eq
  rcases List.eq_nil_or_concat keys with rfl | ⟨L, u, rfl⟩
  · simp only [List.length_nil] at hs hlen
    omega
  rcases List.eq_nil_or_concat kids with rfl | ⟨M, m, rfl⟩
  · simp at hlen
  refine ⟨L, u, M, m, List.concat_eq_append, List.concat_eq_append, ?_⟩
  rintro rfl
  simp only [List.concat_eq_append, List.nil_append, List.length_append, List.length_singleton] at hs hlen
  omega

/-- Borrowing from the left never fails. -/
theorem borrowLeft_ok (hx : x.Legal) (hs : x.spare = true) : ∃ r, borrowLeft k x y = .ok r := by
  rcases h with _ | h
  · obtain ⟨lp, lc, ll, rfl⟩ := exists_leaf x
    obtain ⟨rp, rc, rl, rfl⟩ := exists_leaf y
    rcases List.eq_nil_or_concat lc with rfl | ⟨L, m, rfl⟩
    · exact absurd (spare_eq_true.1 hs) (show ¬minBytes + 64 < 9 + 0 by decide)
    · rw [List.concat_eq_append, borrowLeft_leaf]
      exact ⟨_, rfl⟩
  · obtain ⟨lp, lk, lkids, rfl⟩ := exists_branch x
    obtain ⟨rp, rk, rkids, rfl⟩ := exists_branch y
    obtain ⟨L, u, M, m, rfl, rfl, -⟩ := exists_concat_of_spare hx hs
    rw [borrowLeft_branch]
    exact ⟨_, rfl⟩

theorem borrowLeft_keyed (hx : x.Legal) (hs : x.spare = true) (hxk : x.KeyedBelow) (hyk : y.KeyedBelow)
    (hr : borrowLeft k x y = .ok r) : ∀ d ∈ r.2, d.Keyed := by
  rcases h with _ | h
  · exact fun _ _ => trivial
  · obtain ⟨lp, lk, lkids, rfl⟩ := exists_branch x
    obtain ⟨rp, rk, rkids, rfl⟩ := exists_branch y
    obtain ⟨L, u, M, m, rfl, rfl, hL⟩ := exists_concat_of_spare hx hs
    rw [borrowLeft_branch] at hr
    obtain rfl := Except.ok.inj hr
    rw [keyedBelow_branch] at hxk hyk
    simp only [List.mem_cons, List.not_mem_nil, or_false, forall_eq_or_imp, forall_eq, keyed_branch]
    exact ⟨⟨hL, fun c hc => hxk c (by simp [hc])⟩, by simp, hxk m (by simp), hyk⟩

theorem exists_cons_of_spare {p : Nat} {keys : List Int} {kids : List (PT h)} (hl : (branch p keys kids).Legal)
    (hs : (branch p keys kids).spare = true) :
    ∃ u R m M, keys = u :: R ∧ kids = m :: M ∧ R ≠ [] := by
  rw [spare_eq_true, size_branch, minBytes, pageSize] at hs
  obtain ⟨hk, -⟩ := hl.legalKids
  have hlen := hk.length_eq
  rcases keys with _ | ⟨u, R⟩
  · simp only [List.length_nil] at hs hlen
    omega
  rcases kids with _ | ⟨m, M⟩
  · simp at hlen
  refine ⟨u, R, m, M, rfl, rfl, ?_⟩
  rintro rfl
  simp only [List.length_cons, List.length_nil] at hs hlen
  omega

/-- Borrowing from the right fails for leaves only. -/
theorem borrowRight_branch_ok {x y : PT (h + 1)} (hy : y.Legal) (hs : y.spare = true) : ∃ r, borrowRight k x y = .ok r := by
  obtain ⟨lp, lk, lkids, rfl⟩ := exists_branch x
  obtain ⟨rp, rk, rkids, rfl⟩ := exists_branch y
  obtain ⟨u, R, m, M, rfl, rfl, -⟩ := exists_cons_of_spare hy hs
  exact ⟨_, rfl⟩

theorem borrowRight_leaf_fails {x y : PT 0} (hs : y.spare = true) :
    Fails (borrowRight k x y) ↔ (PLeaf.cells y).length = 1 := by
  obtain ⟨lp, lc, ll, rfl⟩ := exists_leaf x
  obtain ⟨rp, rc, rl, rfl⟩ := exists_leaf y
  rcases rc with _ | ⟨m, _ | ⟨f, R⟩⟩
  · exact absurd (spare_eq_true.1 hs) (show ¬minBytes + 64 < 9 + 0 by decide)
  · exact ⟨fun _ => rfl, fun _ => ⟨_, rfl⟩⟩
  · refine ⟨fun ⟨e, he⟩ => ?_, fun hlen => ?_⟩
    · cases he
    · cases hlen

theorem borrowRight_keyed (hy : y.Legal) (hs : y.spare = true) (hxk : x.KeyedBelow) (hyk : y.KeyedBelow)
    (hr : borrowRight k x y = .ok r) : ∀ d ∈ r.2, d.Keyed := by
  rcases h with _ | h
  · exact fun _ _ => trivial
  · obtain ⟨lp, lk, lkids, rfl⟩ := exists_branch x
    obtain ⟨rp, rk, rkids, rfl⟩ := exists_branch y
    obtain ⟨u, R, m, M, rfl, rfl, hR⟩ := exists_cons_of_spare hy hs
    obtain rfl : r = ([u], [branch lp (lk ++ [k]) (lkids ++ [m]), branch rp R M]) := (Except.ok.inj hr).symm
    rw [keyedBelow_branch] at hxk hyk
    simp only [List.mem_cons, List.not_mem_nil, or_false, forall_eq_or_imp, forall_eq, keyed_branch]
    refine ⟨⟨by simp, fun c hc => ?_⟩, hR, fun c hc => hyk c (by simp [hc])⟩
    rcases List.mem_append.1 hc with hc | hc
    · exact hxk c hc
    · exact List.mem_singleton.1 hc ▸ hyk m (by simp)

theorem merge_ok (k : Int) (x y : PT h) : ∃ r, merge k x y = .ok r := by
  rcases h with _ | h <;> exact ⟨_, rfl⟩

theorem merge_keyed (hxk : x.KeyedBelow) (hyk : y.KeyedBelow) (hr : merge k x y = .ok r) : ∀ d ∈ r.2, d.Keyed := by
  rcases h with _ | h
  · exact fun _ _ => trivial
  · obtain ⟨lp, lk, lkids, rfl⟩ := exists_branch x
    obtain ⟨rp, rk, rkids, rfl⟩ := exists_branch y
    obtain rfl : r = ([], [branch lp (lk ++ k :: rk) (lkids ++ rkids)]) := (Except.ok.inj hr).symm
    rw [keyedBelow_branch] at hxk hyk
    simp only [List.mem_cons, List.not_mem_nil, or_false, forall_eq, keyed_branch]
    exact ⟨by simp, fun c hc => (List.mem_append.1 hc).elim (hxk c) (hyk c)⟩

end Step

/-! ### Rebalancing -/

section Rebalance

variable {f : Int → PT h → PT h → Except PyError (Pair h)} {keys : List Int} {kids : List (PT h)} {i j : Nat} {p : Pair h}

theorem LegalKids.exists_atPair (hk : LegalKids keys kids) (hj : j + 1 < kids.length) :
    ∃ k x y, keys[j]? = some k ∧ kids[j]? = some x ∧ kids[j + 1]? = some y := by
  have hlen := hk.length_eq
  exact ⟨keys[j], kids[j], kids[j + 1], List.getElem?_eq_getElem (by omega), List.getElem?_eq_getElem (by omega),
    List.getElem?_eq_getElem hj⟩

theorem fails_atPair {k : Int} {x y : PT h} (hk : keys[j]? = some k) (hx : kids[j]? = some x) (hy : kids[j + 1]? = some y) :
    Fails (atPair f keys kids j) ↔ Fails (f k x y) := by
  rw [atPair, hk, hx, hy]
  exact fails_bind_pure

theorem not_fails {α : Type} {x : Except PyError α} (hx : ∃ a, x = .ok a) : ¬Fails x := by
  rintro ⟨e, rfl⟩
  obtain ⟨a, ha⟩ := hx
  cases ha

/-- Rebalancing one of two or more children fails when it borrows from the right and the step does. -/
theorem LegalKids.rebalance_fails (hk : LegalKids keys kids) {c : PT h} (hc : kids[i]? = some c) (h2 : keys ≠ []) :
    Fails (PT.rebalance keys kids i) ↔ ¬(i ≠ 0 ∧ (kids[i - 1]?).any spare = true) ∧
      ∃ k y, keys[i]? = some k ∧ kids[i + 1]? = some y ∧ y.spare = true ∧ Fails (borrowRight k c y) := by
  have hlen := hk.length_eq
  have hlt := (List.getElem?_eq_some_iff.1 hc).1
  have hpos := List.length_pos_iff.2 h2
  rw [PT.rebalance]
  split
  · rename_i hleft
    obtain ⟨k, x, y, hkj, hx, hy⟩ := hk.exists_atPair (j := i - 1) (by omega)
    have hspare : x.spare = true := by
      have := hleft.2
      rw [hx] at this
      exact this
    rw [fails_atPair hkj hx hy]
    exact ⟨fun hf => absurd hf (not_fails (borrowLeft_ok (hk.legal x (List.mem_of_getElem? hx)) hspare)),
      fun h => absurd hleft h.1⟩
  rename_i hleft
  split
  · rename_i hright
    obtain ⟨y, hy, hspare⟩ := (Option.any_eq_true _ _).1 hright
    obtain ⟨k, x, y', hkj, hx, hy'⟩ := hk.exists_atPair (j := i) (List.getElem?_eq_some_iff.1 hy).1
    obtain rfl := Option.some.inj (hc.symm.trans hx)
    obtain rfl := Option.some.inj (hy.symm.trans hy')
    rw [fails_atPair hkj hx hy]
    refine ⟨fun hf => ⟨hleft, k, y, hkj, hy, hspare, hf⟩, ?_⟩
    rintro ⟨-, k', y', hk', hy', -, hf⟩
    obtain rfl := Option.some.inj (hkj.symm.trans hk')
    obtain rfl := Option.some.inj (hy.symm.trans hy')
    exact hf
  · rename_i hright
    have hj : i - 1 + 1 < kids.length := by omega
    obtain ⟨k, x, y, hkj, hx, hy⟩ := hk.exists_atPair hj
    rw [fails_atPair hkj hx hy]
    refine ⟨fun hf => absurd hf (not_fails (merge_ok k x y)), ?_⟩
    rintro ⟨-, k', y', -, hy', hspare, -⟩
    exact absurd (by rw [hy', Option.any_some, hspare]) hright

/-- What holds of the other children and of what the step leaves holds of all children after rebalancing. -/
theorem rebalance_forall {P : PT h → Prop} {c : PT h} (hc : kids[i]? = some c)
    (hkids : ∀ j d, j ≠ i → kids[j]? = some d → P d)
    (hleft : ∀ k x r, i ≠ 0 → kids[i - 1]? = some x → x.spare = true → borrowLeft k x c = .ok r → ∀ d ∈ r.2, P d)
    (hright : ∀ k y r, ¬(i ≠ 0 ∧ (kids[i - 1]?).any spare = true) → kids[i + 1]? = some y → y.spare = true →
      borrowRight k c y = .ok r → ∀ d ∈ r.2, P d)
    (hmerge : ∀ k x y r j, kids[j]? = some x → kids[j + 1]? = some y → (i = j ∨ i = j + 1) → merge k x y = .ok r →
      ∀ d ∈ r.2, P d)
    (hp : PT.rebalance keys kids i = .ok p) : ∀ d ∈ p.2, P d := by
  -- the children that the step leaves alone
  have hrest : ∀ {j : Nat} {f : Int → PT h → PT h → Except PyError (Pair h)}, (i = j ∨ i = j + 1) →
      (∀ k x y r, kids[j]? = some x → kids[j + 1]? = some y → f k x y = .ok r → ∀ d ∈ r.2, P d) →
      PT.atPair f keys kids j = .ok p → ∀ d ∈ p.2, P d := by
    intro j f hj hf hp d hd
    obtain ⟨k, x, y, r, hkj, hx, hy, hr, rfl⟩ := atPair_eq_ok.1 hp
    simp only [List.mem_append] at hd
    rcases hd with (hd | hd) | hd
    · obtain ⟨m, hm⟩ := List.mem_iff_getElem?.1 hd
      have hlt := (List.getElem?_eq_some_iff.1 hm).1
      rw [List.length_take] at hlt
      rw [List.getElem?_take_of_lt (by omega)] at hm
      exact hkids m d (by omega) hm
    · exact hf k x y r hx hy hr d hd
    · obtain ⟨m, hm⟩ := List.mem_iff_getElem?.1 hd
      rw [List.getElem?_drop] at hm
      exact hkids _ d (by omega) hm
  rw [PT.rebalance] at hp
  split at hp
  · rename_i hl
    refine hrest (by omega) (fun k x y r hx hy hr => ?_) hp
    rw [show i - 1 + 1 = i by omega, hc] at hy
    obtain rfl := Option.some.inj hy
    refine hleft k x r hl.1 hx ?_ hr
    have := hl.2
    rw [hx] at this
    exact this
  rename_i hl
  split at hp
  · rename_i hr'
    refine hrest (by omega) (fun k x y r hx hy hr => ?_) hp
    rw [hc] at hx
    obtain rfl := Option.some.inj hx
    rw [hy] at hr'
    exact hright k y r hl hy hr' hr
  · have hj : i = i - 1 ∨ i = i - 1 + 1 := by omega
    exact hrest hj (fun k x y r hx hy hr => hmerge k x y r _ hx hy hj hr) hp

/-- Rebalancing gives every child a separator. -/
theorem LegalKids.rebalance_keyed (hk : LegalKids keys kids) {c : PT h} (hc : kids[i]? = some c) (hck : c.KeyedBelow)
    (hkids : ∀ j d, j ≠ i → kids[j]? = some d → d.Keyed) (hp : PT.rebalance keys kids i = .ok p) : ∀ d ∈ p.2, d.Keyed := by
  have hbelow : ∀ {j : Nat} {d : PT h}, kids[j]? = some d → d.KeyedBelow := by
    intro j d hd
    by_cases hj : j = i
    · subst hj
      exact Option.some.inj (hc.symm.trans hd) ▸ hck
    · exact (hkids j d hj hd).below
  have hlegal : ∀ {j : Nat} {d : PT h}, kids[j]? = some d → d.Legal := fun hd => hk.legal _ (List.mem_of_getElem? hd)
  exact rebalance_forall hc hkids
    (fun k x r _ hx hs hr => borrowLeft_keyed (hlegal hx) hs (hbelow hx) hck hr)
    (fun k y r _ hy hs hr => borrowRight_keyed (hlegal hy) hs hck (hbelow hy) hr)
    (fun k x y r _ hx hy _ hr => merge_keyed (hbelow hx) (hbelow hy) hr) hp

/-- Rebalancing takes one separator at most. -/
theorem length_rebalance_le (hp : PT.rebalance keys kids i = .ok p) : keys.length ≤ p.1.length + 1 := by
  have hpair : ∀ {j : Nat} {f : Int → PT h → PT h → Except PyError (Pair h)}, PT.atPair f keys kids j = .ok p →
      keys.length ≤ p.1.length + 1 := by
    intro j f hp
    obtain ⟨k, x, y, r, hkj, -, -, -, rfl⟩ := atPair_eq_ok.1 hp
    have hlt := (List.getElem?_eq_some_iff.1 hkj).1
    simp only [List.length_append, List.length_take, List.length_drop]
    omega
  rw [PT.rebalance] at hp
  split at hp
  · exact hpair hp
  · split at hp <;> exact hpair hp

end Rebalance

/-! ### Deletion -/

theorem LegalKids.exists_child {keys : List Int} {kids : List (PT h)} (hk : LegalKids keys kids) (key : Int) :
    ∃ c, kids[bisectRight keys key]? = some c ∧ c ∈ kids := by
  have hle := bisectRight_le keys key
  have hlen := hk.length_eq
  exact ⟨kids[bisectRight keys key], List.getElem?_eq_getElem (by omega), List.getElem_mem _⟩

/-- What deletion leaves has a separator in every internal node, but the root may be underfull. -/
theorem erase_keyed : {h : Nat} → {t : PT h} → {r : PT h × Bool} → t.Legal → t.Keyed → erase key t = .ok r →
    r.1.KeyedBelow ∧ (r.1.Keyed ∨ (r.2 && r.1.under) = true)
  | 0, _, _, _, _, _ => ⟨trivial, .inl trivial⟩
  | h + 1, t, r, hl, hkd, hr => by
    obtain ⟨p, keys, kids, rfl⟩ := exists_branch t
    obtain ⟨hk, -⟩ := hl.legalKids
    obtain ⟨hne, hkids⟩ := keyed_branch.1 hkd
    obtain ⟨c, hc, hcm⟩ := hk.exists_child key
    rw [erase_branch hc] at hr
    obtain ⟨⟨c', found⟩, hr', hr⟩ := bind_eq_ok.1 hr
    obtain ⟨hbelow, hkeyed⟩ := erase_keyed (hk.legal c hcm) (hkids c hcm) hr'
    obtain ⟨hl', hp'⟩ := erase_legal (hk.legal c hcm) hr'
    split at hr
    · rename_i hu
      obtain ⟨q, hq, hr⟩ := bind_eq_ok.1 hr
      obtain rfl := Except.ok.inj hr
      have hc' : (kids.set (bisectRight keys key) c')[bisectRight keys key]? = some c' :=
        List.getElem?_set_self (List.getElem?_eq_some_iff.1 hc).1
      have hkq := (hk.set hc hl' hp').rebalance_keyed hc' hbelow (fun j d hj hd => ?_) hq
      · refine ⟨hkq, ?_⟩
        by_cases hq1 : q.1 = []
        · refine .inr ?_
          have hlen := ((hk.set hc hl' hp').rebalance hc' (hl'.size_lt (Bool.and_eq_true_iff.1 hu).2) hq).1.length_eq
          rw [hq1] at hlen
          exact decide_eq_true (.inl (by change q.2.length < 2; rw [hlen]; decide))
        · exact .inl ⟨hq1, hkq⟩
      · rw [List.getElem?_set_ne (Ne.symm hj)] at hd
        exact hkids d (List.mem_of_getElem? hd)
    · rename_i hu
      obtain rfl := Except.ok.inj hr
      have hk' : ∀ d ∈ kids.set (bisectRight keys key) c', d.Keyed := by
        intro d hd
        rcases List.mem_or_eq_of_mem_set hd with hd | rfl
        · exact hkids d hd
        · exact hkeyed.resolve_right hu
      exact ⟨hk', .inl ⟨hne, hk'⟩⟩

/-- Deletion fails exactly when a leaf starves. -/
theorem erase_fails_iff : {h : Nat} → {t : PT h} → t.Legal → t.Keyed → (Fails (erase key t) ↔ t.Starves key)
  | 0, t, _, _ => by
    obtain ⟨p, cells, l, rfl⟩ := exists_leaf t
    rw [erase_leaf]
    refine ⟨fun hf => ?_, False.elim⟩
    split at hf
    · exact not_fails ⟨_, rfl⟩ hf
    · exact not_fails ⟨_, rfl⟩ hf
  | 1, t, hl, hkd => by
    obtain ⟨p, keys, kids, rfl⟩ := exists_branch t
    obtain ⟨hk, -⟩ := hl.legalKids
    obtain ⟨hne, hkids⟩ := keyed_branch.1 hkd
    obtain ⟨c, hc, hcm⟩ := hk.exists_child key
    obtain ⟨q, cells, l, rfl⟩ := exists_leaf c
    rw [erase_branch hc, erase_leaf]
    change _ ↔ StarvesAt key keys kids
    have hlt := (List.getElem?_eq_some_iff.1 hc).1
    by_cases hkey : hasKey cells key = true
    swap
    · rw [if_neg hkey]
      refine ⟨fun hf => absurd hf (not_fails ⟨_, rfl⟩), ?_⟩
      rintro ⟨⟨c', hc', hkey', -⟩, -⟩
      obtain rfl := Option.some.inj (hc.symm.trans hc')
      exact absurd hkey' hkey
    rw [if_pos hkey]
    have hstep : erase key (leaf q cells l) = .ok (leaf q (cells.eraseIdx (bisectLeft (cells.map Prod.fst) key)) l, true) := by
      rw [erase_leaf, if_pos hkey]
    have hl' := (erase_legal (hk.legal _ hcm) hstep).1
    have hset := hk.set hc hl' rfl
    simp only [bind, Except.bind, Bool.true_and]
    by_cases hu : (leaf q (cells.eraseIdx (bisectLeft (cells.map Prod.fst) key)) l).under = true
    swap
    · rw [if_neg hu]
      refine ⟨fun hf => absurd hf (not_fails ⟨_, rfl⟩), ?_⟩
      rintro ⟨⟨c', hc', -, hu'⟩, -⟩
      obtain rfl := Option.some.inj (hc.symm.trans hc')
      exact absurd hu' hu
    rw [if_pos hu]
    have hc' : (kids.set (bisectRight keys key) (leaf q (cells.eraseIdx (bisectLeft (cells.map Prod.fst) key)) l))[
        bisectRight keys key]? = some (leaf q (cells.eraseIdx (bisectLeft (cells.map Prod.fst) key)) l) :=
      List.getElem?_set_self hlt
    have hother : ∀ j, j ≠ bisectRight keys key →
        (kids.set (bisectRight keys key) (leaf q (cells.eraseIdx (bisectLeft (cells.map Prod.fst) key)) l))[j]? = kids[j]? :=
      fun j hj => List.getElem?_set_ne (Ne.symm hj)
    have hreb := hset.rebalance_fails hc' hne
    rw [hother _ (Nat.succ_ne_self _)] at hreb
    have hleft : (bisectRight keys key ≠ 0 ∧
        Option.any spare (kids.set (bisectRight keys key) (leaf q (cells.eraseIdx (bisectLeft (cells.map Prod.fst) key)) l))[
          bisectRight keys key - 1]? = true) ↔
        bisectRight keys key ≠ 0 ∧ Option.any spare kids[bisectRight keys key - 1]? = true := by
      refine and_congr_right fun hi => ?_
      rw [hother _ (by omega)]
    rw [hleft] at hreb
    suffices hs : Fails (rebalance keys (kids.set (bisectRight keys key)
        (leaf q (cells.eraseIdx (bisectLeft (cells.map Prod.fst) key)) l)) (bisectRight keys key)) ↔ StarvesAt key keys kids by
      rw [← hs]
      exact fails_bind_pure
    refine hreb.trans ?_
    have hpos := hk.length_eq
    constructor
    · rintro ⟨hleft, k, y, -, hy, hs, hf⟩
      exact ⟨⟨_, hc, hkey, hu⟩, hleft, y, hy, hs, (borrowRight_leaf_fails hs).1 hf⟩
    · rintro ⟨-, hleft, y, hy, hs, hlen⟩
      have hlt' := (List.getElem?_eq_some_iff.1 hy).1
      exact ⟨hleft, keys[bisectRight keys key], y, List.getElem?_eq_getElem (by omega), hy, hs,
        (borrowRight_leaf_fails hs).2 hlen⟩
  | h + 2, t, hl, hkd => by
    obtain ⟨p, keys, kids, rfl⟩ := exists_branch t
    obtain ⟨hk, -⟩ := hl.legalKids
    obtain ⟨hne, hkids⟩ := keyed_branch.1 hkd
    obtain ⟨c, hc, hcm⟩ := hk.exists_child key
    have ih : Fails (erase key c) ↔ c.Starves key := erase_fails_iff (hk.legal c hcm) (hkids c hcm)
    have hst : (branch p keys kids).Starves key ↔ c.Starves key := by
      refine ⟨?_, fun hs => ⟨c, hc, hs⟩⟩
      rintro ⟨c', hc', hs⟩
      obtain rfl := Option.some.inj (hc.symm.trans hc')
      exact hs
    rw [hst, ← ih, erase_branch hc]
    rcases hr : erase key c with e | ⟨c', found⟩
    · exact ⟨fun _ => ⟨e, rfl⟩, fun _ => ⟨e, rfl⟩⟩
    refine ⟨fun hf => ?_, fun hf => absurd hf (not_fails ⟨_, rfl⟩)⟩
    exfalso
    obtain ⟨hl', hp'⟩ := erase_legal (hk.legal c hcm) hr
    simp only [bind, Except.bind] at hf
    split at hf
    swap
    · exact not_fails ⟨_, rfl⟩ hf
    have hc' : (kids.set (bisectRight keys key) c')[bisectRight keys key]? = some c' :=
      List.getElem?_set_self (List.getElem?_eq_some_iff.1 hc).1
    rcases hq : rebalance keys (kids.set (bisectRight keys key) c') (bisectRight keys key) with e | q
    · obtain ⟨-, k, y, -, hy, hs, hf'⟩ := ((hk.set hc hl' hp').rebalance_fails hc' hne).1 ⟨e, hq⟩
      exact not_fails (borrowRight_branch_ok ((hk.set hc hl' hp').legal y (List.mem_of_getElem? hy)) hs) hf'
    · rw [hq] at hf
      exact not_fails ⟨_, rfl⟩ hf

end LeafDb.PT
