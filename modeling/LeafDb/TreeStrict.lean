import LeafDb.TreeChain

/-!
# Strictly ascending separators

Every operation keeps keys between separators that ascend (`TreeShape`), and all but one keep them strictly ascending
(`Parted`). Deletion can fail to: a leaf borrows the only cell of its left sibling, the key of this cell becomes the
separator between them, and when the cell was as low as it could be there is nothing left between this separator and the
one before it (`Collides`).
-/

namespace LeafDb

namespace PT

variable {h : Nat} {lo hi : Option Int} {key : Int} {value : Bytes} {n : Nat}

/-- The trees are parted by strictly ascending separators. -/
abbrev Parted (lo hi : Option Int) (keys : List Int) (kids : List (PT h)) : Prop := Kids True (Bounded True) lo hi keys kids

theorem bounded_leaf {strict : Prop} {p l : Nat} {cells : List Cell} :
    Bounded strict lo hi (leaf p cells l) ↔ Ascending cells ∧ ∀ c ∈ cells, InRange lo hi c.1 := Iff.rfl

/-! ### Where deletion goes wrong -/

/-- A leaf without the cell of a key. -/
def without (key : Int) (t : PT 0) : PT 0 :=
  leaf t.page ((PLeaf.cells t).eraseIdx (bisectLeft ((PLeaf.cells t).map Prod.fst) key)) (PLeaf.link t)

/-- A leaf that is underfull without a key that it has. -/
def Short (key : Int) : {h : Nat} → PT h → Prop
  | 0, t => hasKey (PLeaf.cells t) key = true ∧ (without key t).under = true
  | _ + 1, _ => False

/-- A leaf whose only cell has the key `lo`. -/
def OnlyAt (lo : Option Int) : {h : Nat} → PT h → Prop
  | 0, t => ∃ m, PLeaf.cells t = [m] ∧ lo = some m.1
  | _ + 1, _ => False

/-- Child `i` has a left sibling that can spare a cell, and it is the only one and as low as it can be. -/
def TakesLowest (lo : Option Int) (keys : List Int) (kids : List (PT h)) (i : Nat) : Prop :=
  ∃ x, i ≠ 0 ∧ kids[i - 1]? = some x ∧ x.spare = true ∧ x.OnlyAt ((keys.take (i - 1)).getLast?.or lo)

/-- Deletion makes the leaf of the key borrow the only cell of its left sibling, and the key of this cell is the
separator before the sibling. -/
def Collides (key : Int) : {h : Nat} → Option Int → PT h → Prop
  | 0, _, _ => False
  | _ + 1, lo, t =>
    let i := bisectRight (PNode.keys t) key
    ∃ c, (PNode.kids t)[i]? = some c ∧
      (Collides key (((PNode.keys t).take i).getLast?.or lo) c ∨ c.Short key ∧ TakesLowest lo (PNode.keys t) (PNode.kids t) i)

/-! ### Two neighbouring children -/

section Pair

variable {k : Int} {x y : PT h} {r : Pair h}

theorem Parted.pair (hk : Parted lo hi [k] [x, y]) :
    Bounded True lo (some k) x ∧ (∀ a ∈ lo, a < k) ∧ Bounded True (some k) hi y ∧ ∀ b ∈ hi, k < b := by
  obtain ⟨⟩ | ⟨hx, hlo, hy⟩ := hk
  obtain ⟨hy, hhi⟩ := hy
  exact ⟨hx, fun a ha => (hlo a ha).2 trivial, hy, fun b hb => (hhi k rfl b hb).2 trivial⟩

theorem parted_pair (hx : Bounded True lo (some k) x) (hlo : ∀ a ∈ lo, a < k) (hy : Bounded True (some k) hi y)
    (hhi : ∀ b ∈ hi, k < b) : Parted lo hi [k] [x, y] := by
  refine .cons hx (fun a ha => .of_lt (hlo a ha)) (.one hy ?_)
  intro a ha b hb
  cases ha
  exact .of_lt (hhi b hb)

theorem parted_single (hlo : ∀ a ∈ lo, ∀ b ∈ hi, a < b) (hx : Bounded True lo hi x) : Parted lo hi [] [x] :=
  .one hx fun a ha b hb => .of_lt (hlo a ha b hb)

/-- Two leaves with the same cells as before, cut at another place. -/
theorem parted_leaves {lp rp ll rl : Nat} {lc rc : List Cell} {k' : Int} (lc' rc' : List Cell)
    (hk : Parted lo hi [k] [leaf lp lc ll, leaf rp rc rl]) (hcells : lc' ++ rc' = lc ++ rc) (hl : ∀ c ∈ lc', c.1 < k')
    (hr : ∀ c ∈ rc', k' ≤ c.1) (hlo : ∀ a ∈ lo, a < k') (hhi : ∀ b ∈ hi, k' < b) :
    Parted lo hi [k'] [leaf lp lc' ll, leaf rp rc' rl] := by
  obtain ⟨hx, hlok, hy, hhik⟩ := hk.pair
  obtain ⟨hal, hinl⟩ := bounded_leaf.1 hx
  obtain ⟨har, hinr⟩ := bounded_leaf.1 hy
  have hasc : Ascending (lc' ++ rc') := by
    rw [hcells]
    refine List.pairwise_append.2 ⟨hal, har, ?_⟩
    intro a ha b hb
    exact ((hinl a ha).2 k rfl).trans_le ((hinr b hb).1 k rfl)
  have hin : ∀ c ∈ lc' ++ rc', InRange lo hi c.1 := by
    intro c hc
    rw [hcells, List.mem_append] at hc
    rcases hc with hc | hc
    · exact ⟨(hinl c hc).1, fun b hb => ((hinl c hc).2 k rfl).trans (hhik b hb)⟩
    · exact ⟨fun a ha => (hlok a ha).le.trans ((hinr c hc).1 k rfl), (hinr c hc).2⟩
  obtain ⟨hal', har', -⟩ := List.pairwise_append.1 hasc
  refine parted_pair ⟨hal', ?_⟩ hlo ⟨har', ?_⟩ hhi
  · intro c hc
    refine ⟨(hin c (List.mem_append_left _ hc)).1, ?_⟩
    intro b hb
    cases hb
    exact hl c hc
  · intro c hc
    refine ⟨?_, (hin c (List.mem_append_right _ hc)).2⟩
    intro a ha
    cases ha
    exact hr c hc

/-- Two internal nodes with the same children as before, cut at another separator. -/
theorem parted_branches {lp rp : Nat} {lk rk : List Int} {lkids rkids : List (PT h)} {k' : Int} (lk' rk' : List Int)
    (lkids' rkids' : List (PT h)) (hk : Parted lo hi [k] [branch lp lk lkids, branch rp rk rkids])
    (hkeys : lk' ++ k' :: rk' = lk ++ k :: rk) (hkids : lkids' ++ rkids' = lkids ++ rkids) (hlen : lk'.length + 1 = lkids'.length) :
    Parted lo hi [k'] [branch lp lk' lkids', branch rp rk' rkids'] := by
  obtain ⟨hx, -, hy, -⟩ := hk.pair
  have hall : Parted lo hi (lk ++ k :: rk) (lkids ++ rkids) := Kids.append hx hy
  rw [← hkeys, ← hkids] at hall
  obtain ⟨hx', hy'⟩ := hall.split
  rw [hlen, List.take_left] at hx'
  rw [hlen, List.drop_left] at hy'
  exact parted_pair hx' (fun a ha => (hx'.bounds a ha k' rfl).2 trivial) hy' fun b hb => (hy'.bounds k' rfl b hb).2 trivial

/-- `_borrow_from_left` keeps the strict order unless the cell it takes is the only one and as low as it can be. -/
theorem borrowLeft_parted (hk : Parted lo hi [k] [x, y]) (hcol : ¬x.OnlyAt lo) (hr : borrowLeft k x y = .ok r) :
    Parted lo hi r.1 r.2 := by
  rcases h with _ | h
  · obtain ⟨lp, lc, ll, rfl⟩ := exists_leaf x
    obtain ⟨rp, rc, rl, rfl⟩ := exists_leaf y
    rcases List.eq_nil_or_concat lc with rfl | ⟨L, m, rfl⟩
    · cases hr
    rw [List.concat_eq_append] at hk hcol hr
    rw [borrowLeft_leaf] at hr
    obtain rfl := Except.ok.inj hr
    obtain ⟨hx, -, hy, hhik⟩ := hk.pair
    obtain ⟨hal, hinl⟩ := bounded_leaf.1 hx
    obtain ⟨-, hinr⟩ := bounded_leaf.1 hy
    have hLm : ∀ c ∈ L, c.1 < m.1 := fun c hc => (List.pairwise_append.1 hal).2.2 c hc m (by simp)
    have hmk : m.1 < k := (hinl m (by simp)).2 k rfl
    refine parted_leaves L (m :: rc) hk (by simp) hLm ?_ ?_ (fun b hb => hmk.trans (hhik b hb))
    · intro c hc
      rcases List.mem_cons.1 hc with rfl | hc
      · exact le_rfl
      · exact hmk.le.trans ((hinr c hc).1 k rfl)
    · intro a ha
      rcases L with _ | ⟨c, L⟩
      · -- the only cell
        refine ((hinl m (by simp)).1 a ha).lt_of_ne ?_
        rintro rfl
        exact hcol ⟨m, rfl, ha⟩
      · exact ((hinl c (by simp)).1 a ha).trans_lt (hLm c (by simp))
  · obtain ⟨lp, lk, lkids, rfl⟩ := exists_branch x
    obtain ⟨rp, rk, rkids, rfl⟩ := exists_branch y
    have hlen : lkids.length = lk.length + 1 := hk.pair.1.length_eq
    rcases List.eq_nil_or_concat lk with rfl | ⟨L, u, rfl⟩
    · cases hr
    rcases List.eq_nil_or_concat lkids with rfl | ⟨M, m, rfl⟩
    · simp at hlen
    rw [List.concat_eq_append, List.concat_eq_append] at *
    rw [borrowLeft_branch] at hr
    obtain rfl := Except.ok.inj hr
    exact parted_branches L (k :: rk) M (m :: rkids) hk (by simp) (by simp) (by simpa using hlen.symm)

/-- `_borrow_from_right` takes the separator from the second cell. -/
theorem borrowRight_parted (hk : Parted lo hi [k] [x, y]) (hr : borrowRight k x y = .ok r) : Parted lo hi r.1 r.2 := by
  rcases h with _ | h
  · obtain ⟨lp, lc, ll, rfl⟩ := exists_leaf x
    obtain ⟨rp, rc, rl, rfl⟩ := exists_leaf y
    rcases rc with _ | ⟨m, _ | ⟨f, R⟩⟩
    · cases hr
    · cases hr
    obtain rfl := (Except.ok.inj hr).symm
    obtain ⟨hx, hlok, hy, -⟩ := hk.pair
    obtain ⟨-, hinl⟩ := bounded_leaf.1 hx
    obtain ⟨har, hinr⟩ := bounded_leaf.1 hy
    obtain ⟨hmf, hfR⟩ := List.pairwise_cons.1 har
    have hkf : k < f.1 := ((hinr m (by simp)).1 k rfl).trans_lt (hmf f (by simp))
    refine parted_leaves (lc ++ [m]) (f :: R) hk (by simp) ?_ ?_ (fun a ha => (hlok a ha).trans hkf) (hinr f (by simp)).2
    · intro c hc
      rcases List.mem_append.1 hc with hc | hc
      · exact ((hinl c hc).2 k rfl).trans hkf
      · exact List.mem_singleton.1 hc ▸ hmf f (by simp)
    · intro c hc
      rcases List.mem_cons.1 hc with rfl | hc
      · exact le_rfl
      · exact ((List.pairwise_cons.1 hfR).1 c hc).le
  · obtain ⟨lp, lk, lkids, rfl⟩ := exists_branch x
    obtain ⟨rp, rk, rkids, rfl⟩ := exists_branch y
    have hlen : lkids.length = lk.length + 1 := hk.pair.1.length_eq
    rcases rk with _ | ⟨u, R⟩
    · cases hr
    rcases rkids with _ | ⟨m, M⟩
    · cases hr
    obtain rfl := (Except.ok.inj hr).symm
    exact parted_branches (lk ++ [k]) R (lkids ++ [m]) M hk (by simp) (by simp) (by simpa using hlen.symm)

theorem merge_parted (hk : Parted lo hi [k] [x, y]) (hr : merge k x y = .ok r) : Parted lo hi r.1 r.2 := by
  obtain ⟨hx, hlok, hy, hhik⟩ := hk.pair
  have hlohi : ∀ a ∈ lo, ∀ b ∈ hi, a < b := fun a ha b hb => (hlok a ha).trans (hhik b hb)
  rcases h with _ | h
  · obtain ⟨lp, lc, ll, rfl⟩ := exists_leaf x
    obtain ⟨rp, rc, rl, rfl⟩ := exists_leaf y
    obtain rfl := (Except.ok.inj hr).symm
    obtain ⟨hal, hinl⟩ := bounded_leaf.1 hx
    obtain ⟨har, hinr⟩ := bounded_leaf.1 hy
    refine parted_single hlohi ⟨List.pairwise_append.2 ⟨hal, har, ?_⟩, ?_⟩
    · intro a ha b hb
      exact ((hinl a ha).2 k rfl).trans_le ((hinr b hb).1 k rfl)
    · intro c hc
      rcases List.mem_append.1 hc with hc | hc
      · exact ⟨(hinl c hc).1, fun b hb => ((hinl c hc).2 k rfl).trans (hhik b hb)⟩
      · exact ⟨fun a ha => (hlok a ha).le.trans ((hinr c hc).1 k rfl), (hinr c hc).2⟩
  · obtain ⟨lp, lk, lkids, rfl⟩ := exists_branch x
    obtain ⟨rp, rk, rkids, rfl⟩ := exists_branch y
    obtain rfl := (Except.ok.inj hr).symm
    exact parted_single hlohi (Kids.append hx hy)

end Pair

/-! ### Deletion -/

section Erase

variable {keys : List Int} {kids : List (PT h)} {i j : Nat} {q : Pair h}

/-- A list around two neighbours. -/
theorem eq_around_pair {α : Type} {l : List α} {a b : α} (ha : l[j]? = some a) (hb : l[j + 1]? = some b) :
    l = l.take j ++ [a, b] ++ l.drop (j + 2) := by
  have hdrop : l.drop (j + 1) = b :: l.drop (j + 2) := by
    rw [← List.getElem_cons_drop (List.getElem?_eq_some_iff.1 hb).1, (List.getElem?_eq_some_iff.1 hb).2]
  rw [List.append_assoc, List.cons_append, List.singleton_append, ← hdrop]
  simpa using eq_around ha

theorem Parted.atPair {f : Int → PT h → PT h → Except PyError (Pair h)} (hk : Parted lo hi keys kids)
    (hf : ∀ hi' k x y r, kids[j]? = some x → Parted ((keys.take j).getLast?.or lo) hi' [k] [x, y] → f k x y = .ok r →
      Parted ((keys.take j).getLast?.or lo) hi' r.1 r.2)
    (hq : atPair f keys kids j = .ok q) : Parted lo hi q.1 q.2 := by
  obtain ⟨k, x, y, r, hkj, hx, hy, hr, rfl⟩ := atPair_eq_ok.1 hq
  have hlen := hk.length_eq
  have hlt := (List.getElem?_eq_some_iff.1 hkj).1
  rw [eq_around hkj, eq_around_pair hx hy] at hk
  obtain ⟨hseg, hplug⟩ := Kids.segment hk (by simp only [List.length_take]; omega) (by simp only [List.length_drop]; omega)
  exact hplug _ _ (hf _ k x y r hx hseg hr)

theorem Parted.rebalance (hk : Parted lo hi keys kids) (hcol : ¬TakesLowest lo keys kids i)
    (hq : rebalance keys kids i = .ok q) : Parted lo hi q.1 q.2 := by
  rw [PT.rebalance] at hq
  split at hq
  · rename_i hleft
    refine hk.atPair ?_ hq
    intro hi' k x y r hx hxy hr
    have hspare : x.spare = true := by
      have hany := hleft.2
      rw [hx] at hany
      exact hany
    exact borrowLeft_parted hxy (fun hat => hcol ⟨x, hleft.1, hx, hspare, hat⟩) hr
  split at hq
  · exact hk.atPair (fun _ _ _ _ _ _ hxy hr => borrowRight_parted hxy hr) hq
  · exact hk.atPair (fun _ _ _ _ _ _ hxy hr => merge_parted hxy hr) hq

/-- The child where a key belongs, and what comes of its parent when it becomes another tree. -/
theorem Parted.child {c : PT h} (hk : Parted lo hi keys kids) (hi' : i ≤ keys.length) (hc : kids[i]? = some c) :
    Parted ((keys.take i).getLast?.or lo) ((keys.drop i).head?.or hi) [] [c] ∧
      ∀ ms ds, Parted ((keys.take i).getLast?.or lo) ((keys.drop i).head?.or hi) ms ds →
        Parted lo hi (keys.take i ++ ms ++ keys.drop i) (kids.take i ++ ds ++ kids.drop (i + 1)) := by
  have hlen := hk.length_eq
  have hkeys : keys = keys.take i ++ [] ++ keys.drop i := by simp
  have hk' := hk
  rw [hkeys, eq_around hc] at hk'
  exact Kids.segment hk' (by simp only [List.length_take]; omega) (by simp only [List.length_drop]; omega)

theorem Parted.set {c c' : PT h} (hk : Parted lo hi keys kids) (hi' : i ≤ keys.length) (hc : kids[i]? = some c)
    (hc' : Parted ((keys.take i).getLast?.or lo) ((keys.drop i).head?.or hi) [] [c']) : Parted lo hi keys (kids.set i c') := by
  have hplug := (hk.child hi' hc).2 _ _ hc'
  rw [List.append_nil, List.take_append_drop, List.append_assoc, List.singleton_append] at hplug
  rw [List.set_eq_take_append_cons_drop, if_pos (List.getElem?_eq_some_iff.1 hc).1]
  exact hplug

/-- The children of a branch. -/
theorem Parted.below {p : Nat} (hk : Parted lo hi [] [branch p keys kids]) : Parted lo hi keys kids := by
  obtain ⟨hb, -⟩ := hk
  exact hb

theorem Parted.branch {p : Nat} (hk : Parted lo hi keys kids) : Parted lo hi [] [branch p keys kids] := .one hk hk.bounds

/-- A leaf that is underfull after deletion was short of the key. -/
theorem short_of_erase {t t' : PT 0} (hr : erase key t = .ok (t', true)) (hu : t'.under = true) : t.Short key := by
  obtain ⟨p, cells, l, rfl⟩ := exists_leaf t
  rw [erase_leaf] at hr
  split at hr
  · rename_i hkey
    obtain ⟨rfl, -⟩ := Prod.mk.inj (Except.ok.inj hr)
    exact ⟨hkey, hu⟩
  · cases (Prod.mk.inj (Except.ok.inj hr)).2

/-- Deletion keeps the strict order of the separators. -/
theorem erase_parted : {h : Nat} → {t : PT h} → {lo hi : Option Int} → {r : PT h × Bool} → Parted lo hi [] [t] →
    ¬t.Collides key lo → erase key t = .ok r → Parted lo hi [] [r.1]
  | 0, t, lo, hi, r, hk, _, hr => by
    obtain ⟨p, cells, l, rfl⟩ := exists_leaf t
    obtain ⟨hb, hle⟩ := hk
    obtain ⟨ha, hin⟩ := bounded_leaf.1 hb
    rw [erase_leaf] at hr
    split at hr
    · obtain rfl := Except.ok.inj hr
      have hsub := cells.eraseIdx_sublist (bisectLeft (cells.map Prod.fst) key)
      exact .one (bounded_leaf.2 ⟨ha.sublist hsub, fun c hc => hin c (hsub.subset hc)⟩) hle
    · obtain rfl := Except.ok.inj hr
      exact .one hb hle
  | h + 1, t, lo, hi, r, hk, hcol, hr => by
    obtain ⟨p, keys, kids, rfl⟩ := exists_branch t
    have hkids := hk.below
    have hle := bisectRight_le keys key
    rcases hc : kids[bisectRight keys key]? with _ | c
    · rw [erase_branch_none hc] at hr
      cases hr
    rw [erase_branch hc] at hr
    obtain ⟨⟨c', found⟩, hr', hr⟩ := bind_eq_ok.1 hr
    have hset := hkids.set hle hc (erase_parted (hkids.child hle hc).1 (fun hcc => hcol ⟨c, hc, .inl hcc⟩) hr')
    split at hr
    · rename_i hu
      obtain ⟨hfound, hu⟩ := Bool.and_eq_true_iff.1 hu
      obtain rfl : found = true := hfound
      obtain ⟨q, hq, hr⟩ := bind_eq_ok.1 hr
      obtain rfl := Except.ok.inj hr
      refine (hset.rebalance ?_ hq).branch
      rintro ⟨x, hi0, hx, hspare, hat⟩
      rw [List.getElem?_set_ne (by omega)] at hx
      refine hcol ⟨c, hc, .inr ⟨?_, x, hi0, hx, hspare, hat⟩⟩
      rcases h with _ | h
      · exact short_of_erase hr' hu
      · exact hat.elim
    · obtain rfl := Except.ok.inj hr
      exact hset.branch

end Erase

/-! ### Insertion -/

section Put

variable {p : Nat} {keys : List Int} {kids : List (PT h)}

/-- A leaf is split between two cells, so its left half is not empty. -/
theorem putLeaf_parted {l : Nat} {cells : List Cell} {g : Grown 0} (ha : Ascending cells) (hin : ∀ c ∈ cells, InRange lo hi c.1)
    (hle : ∀ a ∈ lo, ∀ b ∈ hi, a < b) (hg : putLeaf p cells l n = .ok g) : Parted lo hi g.1.1 g.1.2 := by
  rw [putLeaf] at hg
  split at hg
  · obtain rfl := Except.ok.inj hg
    exact parted_single hle (bounded_leaf.2 ⟨ha, hin⟩)
  simp only at hg
  split at hg
  · cases hg
  rename_i hmid
  split at hg
  · cases hg
  rename_i first hfirst
  obtain rfl := Except.ok.inj hg
  have hlen : 0 < (cells.take (cells.length / 2)).length := by
    rw [List.length_take]
    omega
  have hcut := List.take_append_drop (cells.length / 2) cells
  generalize cells.take (cells.length / 2) = L at hlen hcut ⊢
  generalize cells.drop (cells.length / 2) = R at hfirst hcut ⊢
  subst hcut
  obtain ⟨haL, haR, hLR⟩ := List.pairwise_append.1 ha
  obtain ⟨R, rfl⟩ : ∃ R', R = first :: R' := ⟨_, List.eq_cons_of_mem_head? hfirst⟩
  have hLf : ∀ c ∈ L, c.1 < first.1 := fun c hc => hLR c hc first (by simp)
  refine parted_pair (bounded_leaf.2 ⟨haL, ?_⟩) ?_ (bounded_leaf.2 ⟨haR, ?_⟩) (hin first (by simp)).2
  · intro c hc
    refine ⟨(hin c (List.mem_append_left _ hc)).1, ?_⟩
    intro b hb
    cases hb
    exact hLf c hc
  · intro a ha'
    obtain ⟨c, hc⟩ := List.exists_mem_of_length_pos hlen
    exact ((hin c (List.mem_append_left _ hc)).1 a ha').trans_lt (hLf c hc)
  · intro c hc
    refine ⟨?_, (hin c (List.mem_append_right _ hc)).2⟩
    intro a ha'
    cases ha'
    rcases List.mem_cons.1 hc with rfl | hc
    · exact le_rfl
    · exact ((List.pairwise_cons.1 haR).1 c hc).le

theorem putBranch_parted {g : Grown (h + 1)} (hk : Parted lo hi keys kids) (hg : putBranch p keys kids n = .ok g) :
    Parted lo hi g.1.1 g.1.2 := by
  rw [putBranch] at hg
  split at hg
  · obtain rfl := Except.ok.inj hg
    exact hk.branch
  simp only at hg
  split at hg
  · cases hg
  split at hg
  · cases hg
  rename_i sep hsep
  obtain rfl := Except.ok.inj hg
  have hlt := (List.getElem?_eq_some_iff.1 hsep).1
  rw [eq_around hsep, List.append_assoc, List.singleton_append] at hk
  obtain ⟨hx, hy⟩ := hk.split
  rw [List.length_take, min_eq_left hlt.le] at hx hy
  exact parted_pair hx (fun a ha => (hx.bounds a ha sep rfl).2 trivial) hy fun b hb => (hy.bounds sep rfl b hb).2 trivial

/-- The key lies between the separators around its place. -/
theorem Parted.inRange (hk : Parted lo hi keys kids) (hin : InRange lo hi key) :
    InRange ((keys.take (bisectRight keys key)).getLast?.or lo) ((keys.drop (bisectRight keys key)).head?.or hi) key := by
  obtain ⟨ka, kb, hkeys, hbis, hka, hkb⟩ := exists_bisectRight_of_le (hk.pairwise.imp And.left) key
  rw [hbis, hkeys, List.take_left, List.drop_left]
  exact hin.between hka hkb

/-- Insertion keeps the strict order of the separators. -/
theorem put_parted : {h : Nat} → {t : PT h} → {lo hi : Option Int} → {g : Grown h} → Parted lo hi [] [t] → InRange lo hi key →
    put key value t n = .ok g → Parted lo hi g.1.1 g.1.2
  | 0, t, lo, hi, g, hk, hin, hg => by
    obtain ⟨p, cells, l, rfl⟩ := exists_leaf t
    have hle : ∀ a ∈ lo, ∀ b ∈ hi, a < b := fun a ha b hb => (hk.bounds a ha b hb).2 trivial
    obtain ⟨hb, -⟩ := hk
    obtain ⟨ha, hrange⟩ := bounded_leaf.1 hb
    obtain ⟨L, R, rfl, hi', hL, hR⟩ := exists_around ha key
    rw [put_leaf, hasKey_append hi', hi', insertIdx_append] at hg
    rcases hR with ⟨v, R', rfl, -⟩ | hR
    · rw [if_pos (by simp)] at hg
      cases hg
    split at hg
    · cases hg
    refine putLeaf_parted (ascending_insert ha hL hR) ?_ hle hg
    intro c hc
    rcases List.mem_append.1 hc with hc | hc
    · exact hrange c (List.mem_append_left _ hc)
    · rcases List.mem_cons.1 hc with rfl | hc
      · exact hin
      · exact hrange c (List.mem_append_right _ hc)
  | h + 1, t, lo, hi, g, hk, hin, hg => by
    obtain ⟨p, keys, kids, rfl⟩ := exists_branch t
    have hkids := hk.below
    rcases hc : kids[bisectRight keys key]? with _ | c
    · rw [put_branch_none hc] at hg
      cases hg
    rw [put_branch hc] at hg
    obtain ⟨r, hr, hg⟩ := bind_eq_ok.1 hg
    obtain ⟨hchild, hplug⟩ := hkids.child (bisectRight_le keys key) hc
    have hall := hplug _ _ (put_parted hchild (hkids.inRange hin) hr)
    simp only at hg
    split at hg
    · obtain rfl := Except.ok.inj hg
      exact hall.branch
    · exact putBranch_parted hall hg

/-- Overwriting a key that is there keeps every key. -/
theorem replace_parted : {h : Nat} → {t : PT h} → {lo hi : Option Int} → Parted lo hi [] [t] → t.present key = true →
    Parted lo hi [] [t.replace key value]
  | 0, t, lo, hi, hk, hp => by
    obtain ⟨p, cells, l, rfl⟩ := exists_leaf t
    obtain ⟨hb, hle⟩ := hk
    obtain ⟨ha, hrange⟩ := bounded_leaf.1 hb
    obtain ⟨L, R, rfl, hi', hL, hR⟩ := exists_around ha key
    change hasKey (L ++ R) key = true at hp
    rw [hasKey_append hi'] at hp
    obtain ⟨v, R, rfl, habove⟩ : ∃ v R', R = (key, v) :: R' ∧ ∀ c ∈ R', key < c.1 := by
      rcases hR with hR | hR
      · exact hR
      · obtain ⟨c, hc, he⟩ := (Option.any_eq_true _ _).1 hp
        exact absurd (hR c (List.mem_of_head? hc)) (of_decide_eq_true he ▸ lt_irrefl _)
    have hcells : (L ++ (key, v) :: R).set L.length (key, value) = L ++ (key, value) :: R := by simp
    have hrep : (leaf p (L ++ (key, v) :: R) l).replace key value = leaf p (L ++ (key, value) :: R) l := by
      rw [← hcells, ← hi']
      rfl
    rw [hrep]
    refine .one (bounded_leaf.2 ⟨?_, ?_⟩) hle
    · exact ascending_insert (ha.sublist ((List.Sublist.refl L).append (List.sublist_cons_self _ _))) hL habove
    · intro c hc
      rcases List.mem_append.1 hc with hc | hc
      · exact hrange c (by simp [hc])
      · rcases List.mem_cons.1 hc with rfl | hc
        · exact hrange (key, v) (by simp)
        · exact hrange c (by simp [hc])
  | h + 1, t, lo, hi, hk, hp => by
    obtain ⟨p, keys, kids, rfl⟩ := exists_branch t
    have hkids := hk.below
    have hle := bisectRight_le keys key
    rcases hc : kids[bisectRight keys key]? with _ | c
    · have hlen := hkids.length_eq
      rw [List.getElem?_eq_none_iff] at hc
      omega
    rw [present_branch hc] at hp
    have hrep : (branch p keys kids).replace key value = branch p keys (kids.set (bisectRight keys key) (c.replace key value)) := by
      obtain ⟨hlt, hget⟩ := List.getElem?_eq_some_iff.1 hc
      change branch p keys (kids.modify (bisectRight keys key) (PT.replace key value)) = _
      rw [List.modify_eq_take_cons_drop hlt, hget, List.set_eq_take_append_cons_drop, if_pos hlt]
    rw [hrep]
    exact (hkids.set hle hc (replace_parted (hkids.child hle hc).1 hp)).branch

end Put

end PT

/-! ### Whole trees -/

namespace Tree

variable {key : Int} {value : Bytes} {t t' : Tree} {n m : Nat}

/-- The separators of the tree ascend strictly. -/
def Strict (t : Tree) : Prop := PT.Parted none none [] [t.2]

theorem Strict.put (ht : t.Strict) (hput : t.put key value n = .ok (t', m)) : t'.Strict := by
  obtain ⟨g, hg, hput⟩ := bind_eq_ok.1 hput
  have hparted := PT.put_parted ht ⟨by simp, by simp⟩ hg
  split at hput
  · rename_i a ha
    cases Except.ok.inj hput
    rw [ha] at hparted
    exact hparted
  · rename_i k a b hab
    cases Except.ok.inj hput
    rw [hab] at hparted
    exact PT.Parted.branch hparted
  · cases hput

theorem Strict.replace (ht : t.Strict) (hkey : t.2.present key = true) : (t.replace key value).Strict :=
  PT.replace_parted ht hkey

theorem Strict.collapse : {h : Nat} → {t : PT h} → Strict ⟨h, t⟩ → (Tree.collapse t).Strict
  | 0, _, ht => ht
  | h + 1, t, ht => by
    obtain ⟨p, keys, kids, rfl⟩ := PT.exists_branch t
    have hkids := PT.Parted.below ht
    rcases keys with _ | ⟨k, keys⟩
    swap
    · exact ht
    obtain ⟨c, rfl⟩ : ∃ c, kids = [c] := List.length_eq_one_iff.1 hkids.length_eq
    exact @Strict.collapse h c hkids

/-- A deletion in which no leaf borrows the lowest key of its sibling's range. -/
theorem Strict.erase {found : Bool} (ht : t.Strict) (hcol : ¬t.2.Collides key none) (herase : t.erase key = .ok (t', found)) :
    t'.Strict := by
  obtain ⟨⟨u, b⟩, hu, herase⟩ := bind_eq_ok.1 herase
  have hparted := PT.erase_parted ht hcol hu
  obtain ⟨rfl, rfl⟩ := Prod.mk.inj (Except.ok.inj herase)
  cases b with
  | true => exact Strict.collapse hparted
  | false => exact hparted

end Tree

end LeafDb
