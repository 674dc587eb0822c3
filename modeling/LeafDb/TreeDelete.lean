import LeafDb.TreeInsert

/-!
# Deletion keeps the shape of a tree

A rebalancing step works on two neighbouring children and the separator between them (`Rebalanced`): it
leaves their cells as they are. Only one step can spoil the strict order of separators: the leaf that
borrows from its left sibling takes the key of the cell it moves as the new separator, and when this was
the only cell of the sibling it may be the separator before the sibling too (`collides`).
-/

namespace LeafDb

variable {ν : Type} [TreeLink ν] {strict : Prop} {h : Nat} {s t : Store ν} {lo hi : Option Int} {k k' : Int}

theorem Good.load {ms : List Int} {ds : List (PT h)} (g : Good strict s lo hi ms ds) {t : PT h} (ht : t ∈ ds) :
    s.nodes t.page = .ok t.node ∧ 0 < t.page ∧ t.page < s.numPages :=
  ⟨g.stored _ (List.mem_flatMap.2 ⟨t, ht, t.node_mem⟩), g.range _ (List.mem_flatMap.2 ⟨t, ht, t.page_mem_pages⟩)⟩

/-! ### Two neighbouring children -/

theorem Good.pair {x y : PT h} (g : Good strict s lo hi [k] [x, y]) :
    Good strict s lo (some k) [] [x] ∧ Good strict s (some k) hi [] [y] ∧ (∀ p ∈ x.pages, p ∉ y.pages) ∧
      ∀ a ∈ x.leaves.getLast?, ∀ b ∈ y.leaves.head?, Next a b := by
  simpa [PT.pagesL, PT.leavesL] using Good.split (u := []) (v := []) g

/-- Two leaves with the same cells as before, cut at another place. -/
theorem Good.leaves {lp rp ll rl : Nat} {lc rc : List Cell} (lc' rc' : List Cell) (k' : Int)
    (g : Good strict s lo hi [k] [PT.leaf lp lc ll, PT.leaf rp rc rl]) (hcells : lc' ++ rc' = lc ++ rc)
    (hl : ∀ c ∈ lc', c.1 < k') (hr : ∀ c ∈ rc', k' ≤ c.1) (hlo : ∀ a ∈ lo, Below strict a k')
    (hhi : ∀ b ∈ hi, Below strict k' b) (h1 : t.nodes lp = .ok (.leaf lc' (TreeLink.ofCode ll)))
    (h2 : t.nodes rp = .ok (.leaf rc' (TreeLink.ofCode rl))) (hother : ∀ m, m ≠ lp → m ≠ rp → t.nodes m = s.nodes m)
    (hle : s.numPages ≤ t.numPages) :
    Good strict t lo hi [k'] [PT.leaf lp lc' ll, PT.leaf rp rc' rl] ∧
      Steps s t [PT.leaf lp lc ll, PT.leaf rp rc rl] [PT.leaf lp lc' ll, PT.leaf rp rc' rl] := by
  obtain ⟨gl, gr, hdisj, hnext⟩ := g.pair
  obtain ⟨hal, hinl, -, -, hlp⟩ := gl.of_leaf
  obtain ⟨har, hinr, -, -, hrp⟩ := gr.of_leaf
  have hne : lp ≠ rp := by simpa using hdisj
  have hasc : Ascending (lc' ++ rc') := by
    rw [hcells]
    refine List.pairwise_append.2 ⟨hal, har, fun a ha b hb => ?_⟩
    exact ((hinl a ha).2 k rfl).trans_le ((hinr b hb).1 k rfl)
  have hlok : ∀ a ∈ lo, a ≤ k := fun a ha => (g.kids.lo_below a ha k (by simp)).1
  have hhik : ∀ b ∈ hi, k ≤ b := fun b hb => (gr.kids.bounds k rfl b hb).1
  have hin : ∀ c ∈ lc' ++ rc', InRange lo hi c.1 := by
    intro c hc
    rw [hcells] at hc
    rcases List.mem_append.1 hc with hc | hc
    · exact ⟨(hinl c hc).1, fun b hb => ((hinl c hc).2 k rfl).trans_le (hhik b hb)⟩
    · exact ⟨fun a ha => (hlok a ha).trans ((hinr c hc).1 k rfl), (hinr c hc).2⟩
  obtain ⟨hal', har', -⟩ := List.pairwise_append.1 hasc
  refine ⟨Good.append (u := []) (v := [])
    (good_leaf hal' (fun c hc => ⟨(hin c (List.mem_append_left _ hc)).1, ?_⟩) ?_ h1 ⟨hlp.1, hlp.2.trans_le hle⟩)
    (good_leaf har' (fun c hc => ⟨?_, (hin c (List.mem_append_right _ hc)).2⟩) ?_ h2 ⟨hrp.1, hrp.2.trans_le hle⟩)
    ?_ ?_, ⟨fun q hq => .inl ?_, fun q _ hq => hother q ?_ ?_, hle, ?_, ?_⟩⟩
  · rintro b hb
    cases hb
    exact hl c hc
  · rintro a ha b hb
    cases hb
    exact hlo a ha
  · rintro a ha
    cases ha
    exact hr c hc
  · rintro a ha b hb
    cases ha
    exact hhi b hb
  · simpa [PT.pagesL] using hne
  · simpa [PT.leavesL, Next] using hnext
  · simpa [PT.pagesL] using hq
  · rintro rfl
    simp [PT.pagesL] at hq
  · rintro rfl
    simp [PT.pagesL] at hq
  · simp [PT.leavesL]
  · simp [PT.leavesL]

/-- The children of two neighbouring internal nodes. -/
theorem Good.join {lp rp : Nat} {lk rk : List Int} {lkids rkids : List (PT h)}
    (g : Good strict s lo hi [k] [PT.branch lp lk lkids, PT.branch rp rk rkids]) :
    Good strict s lo hi (lk ++ k :: rk) (lkids ++ rkids) ∧ lk.length + 1 = lkids.length ∧
      lp ∉ PT.pagesL (lkids ++ rkids) ∧ rp ∉ PT.pagesL (lkids ++ rkids) ∧ lp ≠ rp := by
  obtain ⟨gl, gr, hdisj, hnext⟩ := g.pair
  obtain ⟨gl', -, hlp, -⟩ := gl.of_branch
  obtain ⟨gr', -, hrp, -⟩ := gr.of_branch
  simp only [PT.pages_branch, List.mem_cons, not_or] at hdisj
  have hdl := hdisj lp (.inl rfl)
  refine ⟨gl'.append gr' (fun p hp => (hdisj p (.inr hp)).2) (by simpa [PT.leavesL] using hnext),
    gl'.kids.length_eq.symm, ?_, ?_, hdl.1⟩
  · rw [PT.pagesL, List.flatMap_append, List.mem_append, not_or]
    exact ⟨hlp, hdl.2⟩
  · rw [PT.pagesL, List.flatMap_append, List.mem_append, not_or]
    exact ⟨fun hp => (hdisj rp (.inr hp)).1 rfl, hrp⟩

/-- Two internal nodes with the same children as before, cut at another separator. -/
theorem Good.branches {lp rp : Nat} {lk rk : List Int} {lkids rkids : List (PT h)} (lk' rk' : List Int) (k' : Int)
    (lkids' rkids' : List (PT h))
    (g : Good strict s lo hi [k] [PT.branch lp lk lkids, PT.branch rp rk rkids])
    (hkeys : lk' ++ k' :: rk' = lk ++ k :: rk) (hkids : lkids' ++ rkids' = lkids ++ rkids)
    (hlen : lk'.length + 1 = lkids'.length) (h1 : t.nodes lp = .ok (.internal lk' (lkids'.map PT.page)))
    (h2 : t.nodes rp = .ok (.internal rk' (rkids'.map PT.page)))
    (hother : ∀ m, m ≠ lp → m ≠ rp → t.nodes m = s.nodes m) (hle : s.numPages ≤ t.numPages) :
    Good strict t lo hi [k'] [PT.branch lp lk' lkids', PT.branch rp rk' rkids'] ∧
      Steps s t [PT.branch lp lk lkids, PT.branch rp rk rkids] [PT.branch lp lk' lkids', PT.branch rp rk' rkids'] := by
  obtain ⟨gj, -, hlp, hrp, hne⟩ := g.join
  obtain ⟨-, hl⟩ := g.load (List.mem_cons_self ..)
  obtain ⟨-, hr⟩ := g.load (List.mem_cons_of_mem _ (List.mem_cons_self ..))
  have htake : (lkids ++ rkids).take (lk'.length + 1) = lkids' := by rw [← hkids, hlen, List.take_left]
  have hdrop : (lkids ++ rkids).drop (lk'.length + 1) = rkids' := by rw [← hkids, hlen, List.drop_left]
  have := (hkeys ▸ gj).cut rfl hlp hrp hne (htake ▸ h1) (hdrop ▸ h2)
    (fun m hm => hother m (ne_of_mem_of_not_mem hm hlp) (ne_of_mem_of_not_mem hm hrp)) hle
    ⟨hl.1, hl.2.trans_le hle⟩ ⟨hr.1, hr.2.trans_le hle⟩
  rw [htake, hdrop] at this
  have hpages : ∀ q, q ∈ PT.pagesL [PT.branch lp lk' lkids', PT.branch rp rk' rkids'] ↔
      q ∈ PT.pagesL [PT.branch lp lk lkids, PT.branch rp rk rkids] := by
    intro q
    have hq : q ∈ PT.pagesL (lkids' ++ rkids') ↔ q ∈ PT.pagesL (lkids ++ rkids) := by rw [hkids]
    simp only [PT.pagesL, List.flatMap_append, List.mem_append] at hq
    simp only [PT.pagesL, List.flatMap_cons, List.flatMap_nil, List.append_nil, PT.pages_branch, List.mem_append,
      List.mem_cons]
    tauto
  have hleaves : PT.leavesL [PT.branch lp lk' lkids', PT.branch rp rk' rkids'] =
      PT.leavesL [PT.branch lp lk lkids, PT.branch rp rk rkids] := by
    have := congrArg PT.leavesL hkids
    simpa [PT.leavesL] using this
  refine ⟨this, fun q hq => .inl ((hpages q).1 hq), fun q _ hq => hother q ?_ ?_, hle, by rw [hleaves], by rw [hleaves]⟩
  · rintro rfl
    simp [PT.pagesL] at hq
  · rintro rfl
    simp [PT.pagesL] at hq

/-! ### Borrowing and merging -/

/-- The store `s'`, up to the page `pn` of the parent, after the children `ds` with the separators `ms`
became `ds'` with `ms'`. -/
structure Rebalanced (strict : Prop) (s : Store ν) (lo hi : Option Int) (pn : Nat) (ds : List (PT h)) (s' : Store ν)
    (ms' : List Int) (ds' : List (PT h)) : Prop where
  store : ∃ t, t.stale = [] ∧ (∀ nd, s'.set pn nd = t.set pn nd) ∧ Good strict t lo hi ms' ds' ∧ Steps s t ds ds'
  cells : PT.cellsL ds' = PT.cellsL ds

theorem Store.set_congr {s s' : Store ν} {n : Nat} {nd : Node ν} (hn : s.nodes = s'.nodes) (hp : s.numPages = s'.numPages)
    (hs : ∀ q ∈ s.stale, q = n) (hs' : ∀ q ∈ s'.stale, q = n) : s.set n nd = s'.set n nd := by
  have hf : ∀ l : List Nat, (∀ q ∈ l, q = n) → l.filter (· ≠ n) = [] := by
    intro l hl
    simpa [List.filter_eq_nil_iff] using hl
  rw [Store.set, Store.set, hf _ hs, hf _ hs', hn, hp]

theorem Store.set_set {s : Store ν} {n : Nat} {nd nd' : Node ν} : (s.set n nd).set n nd' = s.set n nd' := by
  simp [Store.set]

section Borrow

variable {x y : PT h} {pn : Nat} {ka kb : List Int} {ca cb : List (PT h)}

/-- Two children and then the parent are written, after the objects of all three were changed. -/
theorem does_writes {a b : Nat} {na nb np : Node ν} {l : List Nat} {r : BTree.Parent} {Q : BTree.Parent → Store ν → Prop}
    {H F : Prop} (hst : s.stale = []) (hl : ∀ q ∈ l, q = a ∨ q = b ∨ q = pn)
    (hfit : H → na.fits = .ok () ∧ nb.fits = .ok () ∧ np.fits = .ok ())
    (hQ : ∀ s', (∀ nd, s'.set pn nd = ((s.set a na).set b nb).set pn nd) → Q r s') :
    Does (do writeNode a na; writeNode b nb; writeNode pn np; return r) { s with stale := l } Q
      fun e _ => Abort e ∧ (H → F) := by
  have hbad : ∀ {nd : Node ν} {e : PyError}, (H → nd.fits = .ok ()) → nd.fits = .error e → H → F := by
    intro nd e hok he hH
    cases (hok hH).symm.trans he
  rw [does_bind]
  refine does_write_of (fun _ => ?_) fun e he => ⟨fits_error he, hbad (fun hH => (hfit hH).1) he⟩
  rw [does_bind]
  refine does_write_of (fun _ => ?_) fun e he => ⟨fits_error he, hbad (fun hH => (hfit hH).2.1) he⟩
  rw [does_bind]
  refine does_write_of (fun _ => hQ _ fun nd => ?_) fun e he => ⟨fits_error he, hbad (fun hH => (hfit hH).2.2) he⟩
  rw [Store.set_set]
  refine Store.set_congr rfl rfl (fun q hq => ?_) fun q hq => ?_
  · simp only [Store.set, List.mem_filter, ne_eq, decide_eq_true_eq] at hq
    rcases hl q hq.1.1 with h | h | h
    · exact absurd h hq.1.2
    · exact absurd h hq.2
    · exact h
  · simp [Store.set, hst] at hq

/-- The separators and children of the parent after the step `f` on the children `x` and `y`. -/
def Between (strict : Prop) (s : Store ν) (lo hi : Option Int) (pn : Nat) (x y : PT h) (ka kb : List Int)
    (ca cb : List (PT h)) (f : Except PyError (PT.Pair h)) (r : BTree.Parent) (s' : Store ν) : Prop :=
  ∃ ms' ds', f = .ok (ms', ds') ∧ r = (ka ++ ms' ++ kb, (ca ++ ds' ++ cb).map PT.page) ∧
    Rebalanced strict s lo hi pn [x, y] s' ms' ds'

/-- What the step `f` makes of two children can be written, and so can the parent. -/
def StepFits (pn : Nat) (ka kb : List Int) (ca cb : List (PT h)) (f : Except PyError (PT.Pair h)) : Prop :=
  ∀ r, f = .ok r → (∀ d ∈ r.2, d.Fits) ∧ (PT.branch pn (ka ++ r.1 ++ kb) (ca ++ r.2 ++ cb)).Fits

theorem StepFits.nodes {f : Except PyError (PT.Pair h)} {ms : List Int} {a b : PT h}
    (hf : StepFits pn ka kb ca cb f) (hr : f = .ok (ms, [a, b])) : (a.node (ν := ν)).fits = .ok () ∧
      (b.node (ν := ν)).fits = .ok () ∧
      (Node.internal (ka ++ ms ++ kb) ((ca ++ [a, b] ++ cb).map PT.page) : Node ν).fits = .ok () := by
  obtain ⟨hd, hp⟩ := hf _ hr
  exact ⟨PT.Fits.node_fits (hd a (by simp)), PT.Fits.node_fits (hd b (by simp)), PT.Fits.node_fits hp⟩

theorem set_middle (ka kb : List Int) (k k' : Int) : (ka ++ [k] ++ kb).set ka.length k' = ka ++ [k'] ++ kb := by
  simp

theorem does_borrowFromLeft (g : Good strict s lo hi [k] [x, y]) (hst : s.stale = [])
    (hcol : strict → ∀ m next, x.node (ν := ν) = .leaf [m] next → m.1 ∉ lo) {H : Prop}
    (hfit : H → StepFits pn ka kb ca cb (PT.borrowLeft k x y)) :
    Does (BTree.borrowFromLeft pn (ka ++ [k] ++ kb, (ca ++ [x, y] ++ cb).map PT.page) (ka.length + 1) x.page y.page x.node
      y.node) s (Between strict s lo hi pn x y ka kb ca cb (PT.borrowLeft k x y))
      fun e _ => Abort e ∧ (H → Fails (PT.borrowLeft k x y)) := by
  have hk : (ka ++ [k] ++ kb)[ka.length + 1 - 1]? = some k := by simp
  rw [BTree.borrowFromLeft, does_bind, does_at hk]
  have hx := (g.load (List.mem_cons_self ..)).2
  have hne : x.page ≠ y.page := fun he => g.pair.2.2.1 _ x.page_mem_pages (he ▸ y.page_mem_pages)
  rcases h with _ | h
  · obtain ⟨lp, lc, ll, rfl⟩ := PT.exists_leaf x
    obtain ⟨rp, rc, rl, rfl⟩ := PT.exists_leaf y
    obtain ⟨gl, gr, -⟩ := g.pair
    obtain ⟨hal, hinl, -⟩ := gl.of_leaf
    obtain ⟨-, hinr, -⟩ := gr.of_leaf
    simp only [PT.node_leaf, PT.page_leaf] at hne hcol ⊢
    rcases List.eq_nil_or_concat lc with rfl | ⟨L, m, rfl⟩
    · rw [does_bind]
      exact ⟨⟨by simp, by simp⟩, fun _ => ⟨_, rfl⟩⟩
    rw [List.concat_eq_append] at *
    have hstep := PT.borrowLeft_leaf (k := k) lp ll rp rl L rc m
    have hm : (L ++ [m])[(L ++ [m]).length - 1]? = some m := by simp
    rw [does_bind, does_at hm, BTree.borrowFromLeft.store, does_bind, does_mutate, does_bind, does_mutate, does_bind,
      does_mutate, hst]
    refine does_writes (s := s) hst (by simp) (fun hH => ?_) fun s' hs' => ?_
    · obtain ⟨h1, h2, h3⟩ := (hfit hH).nodes (ν := ν) hstep
      rw [List.dropLast_concat, Nat.add_sub_cancel, set_middle]
      exact ⟨h1, h2, by simpa using h3⟩
    rw [List.dropLast_concat] at hs'
    obtain ⟨-, -, hLm⟩ := List.pairwise_append.1 hal
    have hmk : m.1 < k := (hinl m (by simp)).2 k rfl
    have hgood := Good.leaves (t := (s.set lp (.leaf L (TreeLink.ofCode ll))).set rp (.leaf (m :: rc) (TreeLink.ofCode rl)))
      L (m :: rc) m.1 g (by simp) (fun c hc => hLm c hc m (by simp)) ?_ ?_ ?_ ?_ ?_ ?_ ?_
    · refine ⟨_, _, hstep, ?_, ⟨_, ?_, hs', hgood⟩, ?_⟩
      · rw [Nat.add_sub_cancel, set_middle]
        simp
      · simp [Store.set, hst]
      · simp [PT.cellsL, PT.leavesL]
    · intro c hc
      rcases List.mem_cons.1 hc with rfl | hc
      · exact le_rfl
      · exact hmk.le.trans ((hinr c hc).1 k rfl)
    · intro a ha
      have hle := (hinl m (by simp)).1 a ha
      refine ⟨hle, fun hs => hle.lt_of_ne fun he => ?_⟩
      rcases L with _ | ⟨c, L⟩
      · exact hcol hs m _ rfl (he ▸ ha)
      · exact absurd (((hinl c (by simp)).1 a ha).trans_lt (hLm c (by simp) m (by simp))) (he ▸ lt_irrefl _)
    · intro b hb
      exact .of_lt (hmk.trans_le (gr.kids.bounds k rfl b hb).1)
    · rw [Store.nodes_set_other hne, Store.nodes_set_self, Node.reread, TreeLink.code_ofCode]
    · rw [Store.nodes_set_self, Node.reread, TreeLink.code_ofCode]
    · exact fun q hq hq' => by rw [Store.nodes_set_other hq', Store.nodes_set_other hq]
    · exact (le_max_left _ _).trans (le_max_left _ _)
  · obtain ⟨lp, lk, lkids, rfl⟩ := PT.exists_branch x
    obtain ⟨rp, rk, rkids, rfl⟩ := PT.exists_branch y
    obtain ⟨-, hlen, -⟩ := g.join
    simp only [PT.node_branch, PT.page_branch] at hne ⊢
    rcases List.eq_nil_or_concat lk with rfl | ⟨L, u, rfl⟩
    · rw [does_bind]
      exact ⟨⟨by simp, by simp⟩, fun _ => ⟨_, rfl⟩⟩
    rcases List.eq_nil_or_concat lkids with rfl | ⟨M, m, rfl⟩
    · simp at hlen
    simp only [List.concat_eq_append, List.map_append, List.map_cons, List.map_nil] at *
    have hstep := PT.borrowLeft_branch (k := k) lp rp L rk u M rkids m
    have hu : (L ++ [u])[(L ++ [u]).length - 1]? = some u := by simp
    have hm : (M.map PT.page ++ [m.page])[(M.map PT.page ++ [m.page]).length - 1]? = some m.page := by simp
    rw [does_bind, does_at hu, does_bind, does_at hm, BTree.borrowFromLeft.store, does_bind, does_mutate, does_bind,
      does_mutate, does_bind, does_mutate, hst]
    refine does_writes (s := s) hst (by simp) (fun hH => ?_) fun s' hs' => ?_
    · obtain ⟨h1, h2, h3⟩ := (hfit hH).nodes (ν := ν) hstep
      rw [List.dropLast_concat, List.dropLast_concat, Nat.add_sub_cancel, set_middle]
      exact ⟨h1, h2, by simpa using h3⟩
    rw [List.dropLast_concat, List.dropLast_concat] at hs'
    have hgood := Good.branches (t := (s.set lp (.internal L (M.map PT.page))).set rp
      (.internal (k :: rk) (m.page :: rkids.map PT.page))) L (k :: rk) u M (m :: rkids) g (by simp) (by simp)
      (by simpa using hlen) ?_ ?_ ?_ ?_
    · refine ⟨_, _, hstep, ?_, ⟨_, ?_, hs', hgood⟩, ?_⟩
      · rw [Nat.add_sub_cancel, set_middle]
        simp
      · simp [Store.set, hst]
      · simp [PT.cellsL, PT.leavesL]
    · rw [Store.nodes_set_other hne, Store.nodes_set_self]
      rfl
    · rw [Store.nodes_set_self]
      rfl
    · exact fun q hq hq' => by rw [Store.nodes_set_other hq', Store.nodes_set_other hq]
    · exact (le_max_left _ _).trans (le_max_left _ _)

theorem does_borrowFromRight (g : Good strict s lo hi [k] [x, y]) (hst : s.stale = []) {H : Prop}
    (hfit : H → StepFits pn ka kb ca cb (PT.borrowRight k x y)) :
    Does (BTree.borrowFromRight pn (ka ++ [k] ++ kb, (ca ++ [x, y] ++ cb).map PT.page) ka.length x.page y.page x.node
      y.node) s (Between strict s lo hi pn x y ka kb ca cb (PT.borrowRight k x y))
      fun e _ => Abort e ∧ (H → Fails (PT.borrowRight k x y)) := by
  have hk : (ka ++ [k] ++ kb)[ka.length]? = some k := by simp
  unfold BTree.borrowFromRight
  have hne : x.page ≠ y.page := fun he => g.pair.2.2.1 _ x.page_mem_pages (he ▸ y.page_mem_pages)
  rcases h with _ | h
  · obtain ⟨lp, lc, ll, rfl⟩ := PT.exists_leaf x
    obtain ⟨rp, rc, rl, rfl⟩ := PT.exists_leaf y
    obtain ⟨gl, gr, -⟩ := g.pair
    obtain ⟨hal, hinl, -⟩ := gl.of_leaf
    obtain ⟨har, hinr, -⟩ := gr.of_leaf
    simp only [PT.node_leaf, PT.page_leaf] at hne ⊢
    rcases rc with _ | ⟨m, _ | ⟨f, R⟩⟩
    · rw [does_bind]
      exact ⟨⟨by simp, by simp⟩, fun _ => ⟨_, rfl⟩⟩
    · rw [does_bind, does_at (a := m) rfl, does_bind, does_mutate, does_bind, does_mutate, does_bind]
      exact ⟨⟨by simp, by simp⟩, fun _ => ⟨_, rfl⟩⟩
    rw [does_bind, does_at (a := m) rfl, does_bind, does_mutate, does_bind, does_mutate, does_bind, does_at (a := f) rfl,
      does_bind, does_at hk, BTree.borrowFromRight.store, does_bind, does_mutate, hst]
    have hstep : PT.borrowRight k (PT.leaf lp lc ll) (PT.leaf rp (m :: f :: R) rl) =
      .ok ([f.1], [PT.leaf lp (lc ++ [m]) ll, PT.leaf rp (f :: R) rl]) := rfl
    refine does_writes (s := s) hst (by simp) (fun hH => ?_) fun s' hs' => ?_
    · obtain ⟨h1, h2, h3⟩ := (hfit hH).nodes (ν := ν) hstep
      rw [set_middle]
      exact ⟨h2, h1, by simpa using h3⟩
    obtain ⟨hmf, hfR⟩ := List.pairwise_cons.1 har
    have hkm : k ≤ m.1 := (hinr m (by simp)).1 k rfl
    have hkf : k < f.1 := hkm.trans_lt (hmf f (by simp))
    have hgood := Good.leaves
      (t := (s.set rp (.leaf (f :: R) (TreeLink.ofCode rl))).set lp (.leaf (lc ++ [m]) (TreeLink.ofCode ll)))
      (lc ++ [m]) (f :: R) f.1 g (by simp) ?_ ?_ ?_ ?_ ?_ ?_ ?_ ?_
    · refine ⟨_, _, hstep, ?_, ⟨_, ?_, hs', hgood⟩, ?_⟩
      · rw [set_middle]
        simp
      · simp [Store.set, hst]
      · simp [PT.cellsL, PT.leavesL]
    · intro c hc
      rcases List.mem_append.1 hc with hc | hc
      · exact ((hinl c hc).2 k rfl).trans hkf
      · obtain rfl := List.mem_singleton.1 hc
        exact hmf f (by simp)
    · intro c hc
      rcases List.mem_cons.1 hc with rfl | hc
      · exact le_rfl
      · exact ((List.pairwise_cons.1 hfR).1 c hc).le
    · exact fun a ha => .of_lt ((gl.kids.bounds a ha k rfl).1.trans_lt hkf)
    · exact fun b hb => .of_lt ((hinr f (by simp)).2 b hb)
    · rw [Store.nodes_set_self, Node.reread, TreeLink.code_ofCode]
    · rw [Store.nodes_set_other hne.symm, Store.nodes_set_self, Node.reread, TreeLink.code_ofCode]
    · exact fun q hq hq' => by rw [Store.nodes_set_other hq, Store.nodes_set_other hq']
    · exact (le_max_left _ _).trans (le_max_left _ _)
  · obtain ⟨lp, lk, lkids, rfl⟩ := PT.exists_branch x
    obtain ⟨rp, rk, rkids, rfl⟩ := PT.exists_branch y
    obtain ⟨gj, hlen, -⟩ := g.join
    simp only [PT.node_branch, PT.page_branch] at hne ⊢
    rw [does_bind, does_at hk]
    rcases rk with _ | ⟨u, R⟩
    · rw [does_bind]
      exact ⟨⟨by simp, by simp⟩, fun _ => ⟨_, rfl⟩⟩
    rcases rkids with _ | ⟨m, M⟩
    · have := gj.kids.length_eq
      simp at this
      omega
    rw [does_bind, does_at (a := u) rfl, does_bind, does_at (a := m.page) rfl, does_bind, does_mutate, does_bind,
      does_mutate, BTree.borrowFromRight.store, does_bind, does_mutate, hst]
    have hstep : PT.borrowRight k (PT.branch lp lk lkids) (PT.branch rp (u :: R) (m :: M)) =
      .ok ([u], [PT.branch lp (lk ++ [k]) (lkids ++ [m]), PT.branch rp R M]) := rfl
    refine does_writes (s := s) hst (by simp) (fun hH => ?_) fun s' hs' => ?_
    · obtain ⟨h1, h2, h3⟩ := (hfit hH).nodes (ν := ν) hstep
      rw [set_middle]
      exact ⟨h2, by simpa using h1, by simpa using h3⟩
    have hgood := Good.branches
      (t := (s.set rp (.internal R (M.map PT.page))).set lp (.internal (lk ++ [k]) (lkids.map PT.page ++ [m.page])))
      (lk ++ [k]) R u (lkids ++ [m]) M g (by simp) (by simp)
      (by simpa using hlen) ?_ ?_ ?_ ?_
    · refine ⟨_, _, hstep, ?_, ⟨_, ?_, hs', hgood⟩, ?_⟩
      · rw [set_middle]
        simp
      · simp [Store.set, hst]
      · simp [PT.cellsL, PT.leavesL]
    · rw [Store.nodes_set_self, List.map_append]
      rfl
    · rw [Store.nodes_set_other hne.symm, Store.nodes_set_self]
      rfl
    · exact fun q hq hq' => by rw [Store.nodes_set_other hq, Store.nodes_set_other hq']
    · exact (le_max_left _ _).trans (le_max_left _ _)

theorem eraseIdx_middle {α : Type} (as bs : List α) (a : α) : (as ++ a :: bs).eraseIdx as.length = as ++ bs := by
  simp [List.eraseIdx_append_of_length_le]

theorem does_mergeAt (g : Good strict s lo hi [k] [x, y]) (hst : s.stale = []) (hla : ka.length = ca.length) {H : Prop}
    (hfit : H → StepFits pn ka kb ca cb (PT.merge k x y)) :
    Does (BTree.mergeAt pn (ka ++ [k] ++ kb, (ca ++ [x, y] ++ cb).map PT.page) ka.length x.page x.node y.node) s
      (Between strict s lo hi pn x y ka kb ca cb (PT.merge k x y))
      fun e _ => Abort e ∧ (H → Fails (PT.merge k x y)) := by
  have hk : (ka ++ [k] ++ kb)[ka.length]? = some k := by simp
  have hkeys : (ka ++ [k] ++ kb).eraseIdx ka.length = ka ++ [] ++ kb := by
    rw [List.append_assoc, List.singleton_append, eraseIdx_middle, List.append_nil]
  have hkids : ∀ x' : PT h, x'.page = x.page →
      ((ca ++ [x, y] ++ cb).map PT.page).eraseIdx (ka.length + 1) = (ca ++ [x'] ++ cb).map PT.page := by
    intro x' hx'
    have := eraseIdx_middle ((ca ++ [x]).map PT.page) (cb.map PT.page) y.page
    rw [List.length_map, List.length_append, List.length_singleton, ← hla] at this
    simpa [hx'] using this
  have hset : ∀ nd nd' : Node ν, ({ s.set x.page nd with stale := [pn] } : Store ν).set pn nd' = (s.set x.page nd).set pn nd' :=
    fun nd nd' => Store.set_congr rfl rfl (by simp) (by simp [Store.set, hst])
  have hstale : ∀ nd : Node ν, (s.set x.page nd).stale = [] := fun nd => by simp [Store.set, hst]
  rw [BTree.mergeAt, does_bind, does_at hk]
  obtain ⟨gl, gr, hdisj, hnext⟩ := g.pair
  rcases h with _ | h
  · obtain ⟨lp, lc, ll, rfl⟩ := PT.exists_leaf x
    obtain ⟨rp, rc, rl, rfl⟩ := PT.exists_leaf y
    obtain ⟨hal, hinl, -, -, hlp⟩ := gl.of_leaf
    obtain ⟨har, hinr, -, -, hrp⟩ := gr.of_leaf
    simp only [PT.node_leaf, PT.page_leaf] at hset hstale hkids ⊢
    rw [does_bind]
    refine does_write_of (fun _ => ?_) fun e he => ⟨fits_error he, fun hH => ?_⟩
    swap
    · cases (PT.Fits.node_fits (((hfit hH) _ rfl).1 (PT.leaf lp (lc ++ rc) rl) (List.mem_singleton.2 rfl))).symm.trans he
    rw [does_bind, does_mutate, hstale]
    refine ⟨[], [PT.leaf lp (lc ++ rc) rl], rfl, ?_, ⟨_, hstale _, hset _, good_leaf ?_ ?_ ?_ ?_ ?_, ?_⟩, ?_⟩
    · rw [hkeys, hkids (PT.leaf lp (lc ++ rc) rl) rfl]
    · exact List.pairwise_append.2 ⟨hal, har, fun a ha b hb => ((hinl a ha).2 k rfl).trans_le ((hinr b hb).1 k rfl)⟩
    · intro c hc
      rcases List.mem_append.1 hc with hc | hc
      · exact ⟨(hinl c hc).1, fun b hb => ((hinl c hc).2 k rfl).trans_le (gr.kids.bounds k rfl b hb).1⟩
      · exact ⟨fun a ha => (gl.kids.bounds a ha k rfl).1.trans ((hinr c hc).1 k rfl), (hinr c hc).2⟩
    · exact g.kids.bounds
    · rw [Store.nodes_set_self, Node.reread, TreeLink.code_ofCode]
    · exact ⟨hlp.1, hlp.2.trans_le (le_max_left _ _)⟩
    · refine ⟨fun q hq => .inl ?_, fun q _ hq => Store.nodes_set_other ?_, le_max_left _ _, ?_, ?_⟩
      · simp only [PT.pagesL, List.flatMap_cons, List.flatMap_nil, PT.pages_leaf, List.append_nil, List.mem_singleton] at hq
        simp [PT.pagesL, hq]
      · rintro rfl
        simp [PT.pagesL] at hq
      · simp [PT.leavesL]
      · simp [PT.leavesL]
    · simp [PT.cellsL, PT.leavesL]
  · obtain ⟨lp, lk, lkids, rfl⟩ := PT.exists_branch x
    obtain ⟨rp, rk, rkids, rfl⟩ := PT.exists_branch y
    obtain ⟨gj, hlen, hlp, hrp, -⟩ := g.join
    have hl := (g.load (List.mem_cons_self ..)).2
    simp only [PT.node_branch, PT.page_branch] at hset hstale hkids hl ⊢
    rw [does_bind, does_mutate, does_bind]
    refine does_write_of (fun _ => ?_) fun e he => ⟨fits_error he, fun hH => ?_⟩
    swap
    · have hd := ((hfit hH) _ rfl).1 (PT.branch lp (lk ++ k :: rk) (lkids ++ rkids)) (List.mem_singleton.2 rfl)
      have hd' := PT.Fits.node_fits (ν := ν) hd
      rw [PT.node_branch, List.map_append] at hd'
      cases hd'.symm.trans he
    rw [Store.set_of_mutate, does_bind, does_mutate, hstale]
    refine ⟨[], [PT.branch lp (lk ++ k :: rk) (lkids ++ rkids)], rfl, ?_,
      ⟨_, hstale _, hset _, Good.branch (gj.of_agree ?_ ?_) hlp ?_ ?_, ?_⟩, ?_⟩
    · rw [hkeys, hkids (PT.branch lp (lk ++ k :: rk) (lkids ++ rkids)) rfl]
    · exact fun q hq => Store.nodes_set_other (ne_of_mem_of_not_mem hq hlp)
    · exact le_max_left _ _
    · rw [Store.nodes_set_self, List.map_append]
      rfl
    · exact ⟨hl.1, hl.2.trans_le (le_max_left _ _)⟩
    · refine ⟨fun q hq => .inl ?_, fun q _ hq => Store.nodes_set_other ?_, le_max_left _ _, ?_, ?_⟩
      · simp only [PT.pagesL, List.flatMap_cons, List.flatMap_nil, PT.pages_branch, List.append_nil, List.mem_cons,
          List.flatMap_append, List.mem_append] at hq ⊢
        tauto
      · rintro rfl
        simp [PT.pagesL] at hq
      · simp [PT.leavesL]
      · simp [PT.leavesL]
    · simp [PT.cellsL, PT.leavesL]

end Borrow

end LeafDb
