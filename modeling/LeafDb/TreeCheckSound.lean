import LeafDb.Base.Result
import LeafDb.TreeCheck

/-!
# What a successful check implies

`Checked h pg cells`: the subtree at `pg` has at most `h` levels, passes the local checks, and its leaves
hold `cells` in tree order. Both walks establish it (`BTree.walk_checked`, `Native.go_checked`); on a
checked tree `LeftBounded` gives ascending cells and correct searches, and is needed for them.
-/

namespace LeafDb

/-! ### Bisection among ascending cells -/

theorem Ascending.keys {cells : List Cell} : Ascending cells ↔ (cells.map Prod.fst).Pairwise (· < ·) := by
  rw [List.pairwise_map]; rfl

theorem Ascending.append {as bs : List Cell} :
    Ascending (as ++ bs) ↔ Ascending as ∧ Ascending bs ∧ ∀ a ∈ as, ∀ b ∈ bs, a.1 < b.1 :=
  List.pairwise_append

theorem Ascending.flatten {css : List (List Cell)} :
    Ascending css.flatten ↔ (∀ cs ∈ css, Ascending cs) ∧ css.Pairwise fun as bs => ∀ a ∈ as, ∀ b ∈ bs, a.1 < b.1 :=
  List.pairwise_flatten

theorem leafLookup_eq_some {cells : List Cell} {k : Int} {v : Bytes} (h : leafLookup cells k = some v) :
    (k, v) ∈ cells := by
  unfold leafLookup at h
  split at h
  · rename_i c hc
    split at h
    · rename_i hk
      obtain rfl : c.2 = v := by simpa using h
      subst hk
      exact List.mem_of_getElem? hc
    · cases h
  · cases h

theorem leafLookup_of_mem {cells : List Cell} (ha : Ascending cells) {c : Cell} (hc : c ∈ cells) :
    leafLookup cells c.1 = some c.2 := by
  obtain ⟨as, bs, rfl⟩ := List.append_of_mem hc
  obtain ⟨-, hb, hab⟩ := Ascending.append.1 ha
  have hi : bisectLeft ((as ++ c :: bs).map Prod.fst) c.1 = as.length := by
    rw [List.map_append, bisectLeft_append, List.length_map]
    · intro k hk
      obtain ⟨a, ha', rfl⟩ := List.mem_map.1 hk
      exact hab a ha' c (by simp)
    · intro k hk
      obtain ⟨b, hb', rfl⟩ := List.mem_map.1 hk
      rcases List.mem_cons.1 hb' with rfl | hb'
      · exact le_rfl
      · exact ((List.pairwise_cons.1 hb).1 b hb').le
  rw [leafLookup, hi]
  simp

/-- The index of a key in strictly ascending separators. -/
theorem bisectRight_eq_of {keys : List Int} {k : Int} {j : Nat} (hk : keys.Pairwise (· < ·)) (hj : j ≤ keys.length)
    (hlt : ∀ sep, keys[j]? = some sep → k < sep) (hge : ∀ i, i + 1 = j → ∀ sep, keys[i]? = some sep → sep ≤ k) :
    bisectRight keys k = j := by
  rw [← List.take_append_drop j keys, bisectRight_append, List.length_take, min_eq_left hj]
  · intro a ha
    rcases j with _ | i
    · simp at ha
    · have hi : i < keys.length := hj
      have hle := hge i rfl keys[i] (List.getElem?_eq_getElem hi)
      obtain ⟨m, hm, rfl⟩ := List.mem_take_iff_getElem.1 ha
      rcases Nat.lt_or_ge m i with h | h
      · exact ((List.pairwise_iff_getElem.1 hk m i (by omega) hi h).le).trans hle
      · obtain rfl : m = i := by omega
        exact hle
  · intro b hb
    obtain ⟨m, hm, rfl⟩ := List.mem_drop_iff_getElem.1 hb
    have hj' : j < keys.length := by omega
    have hjk := hlt keys[j] (List.getElem?_eq_getElem hj')
    rcases Nat.eq_zero_or_pos m with rfl | h
    · exact hjk
    · exact hjk.trans (List.pairwise_iff_getElem.1 hk j (j + m) hj' (by omega) (by omega))

theorem lt_of_bisectRight {keys : List Int} (hk : keys.Pairwise (· < ·)) {k sep : Int} {j : Nat}
    (hi : bisectRight keys k ≤ j) (hs : keys[j]? = some sep) : k < sep := by
  obtain ⟨l, r, rfl, hb, -, hr⟩ := exists_bisectRight hk k
  rw [List.getElem?_append_right (hb ▸ hi)] at hs
  exact hr _ (List.mem_of_getElem? hs)

/-! ### Pages under a page -/

section Graph

variable {ν : Type} {load : Nat → Except PyError (Node ν)}

theorem Under.trans {a b c : Nat} (h : Under load a b) (h' : Under load b c) : Under load a c := by
  induction h' with
  | root => exact h
  | child _ hl hc ih => exact ih.child hl hc

theorem Under.cases_head {p q : Nat} (h : Under load p q) :
    p = q ∨ ∃ keys children c, load p = .ok (.internal keys children) ∧ c ∈ children ∧ Under load c q := by
  induction h with
  | root => exact .inl rfl
  | @child q c keys children _ hl hc ih =>
    rcases ih with rfl | ⟨keys', children', c', hl', hc', hu⟩
    · exact .inr ⟨keys, children, c, hl, hc, .root⟩
    · exact .inr ⟨keys', children', c', hl', hc', hu.child hl hc⟩

theorem cellUnder_leaf {pg : Nat} {cells : List Cell} {nx : ν} (hl : load pg = .ok (.leaf cells nx)) {c : Cell} :
    CellUnder load pg c ↔ c ∈ cells := by
  constructor
  · rintro ⟨p, cells', nx', hu, hp, hc⟩
    rcases hu.cases_head with rfl | ⟨_, _, _, hl', -, -⟩
    · rw [hl] at hp
      cases hp
      exact hc
    · rw [hl] at hl'
      cases hl'
  · exact fun hc => ⟨pg, cells, nx, .root, hl, hc⟩

theorem cellUnder_internal {pg : Nat} {keys : List Int} {children : List Nat}
    (hl : load pg = .ok (.internal keys children)) {c : Cell} :
    CellUnder load pg c ↔ ∃ cp ∈ children, CellUnder load cp c := by
  constructor
  · rintro ⟨p, cells, nx, hu, hp, hc⟩
    rcases hu.cases_head with rfl | ⟨keys', children', c', hl', hc', hu'⟩
    · rw [hl] at hp
      cases hp
    · rw [hl] at hl'
      cases hl'
      exact ⟨c', hc', p, cells, nx, hu', hp, hc⟩
  · rintro ⟨cp, hcp, p, cells, nx, hu, hp, hc⟩
    exact ⟨p, cells, nx, (Under.root.child hl hcp).trans hu, hp, hc⟩

theorem LeftBounded.child {pg cp : Nat} {keys : List Int} {children : List Nat} (h : LeftBounded load pg)
    (hl : load pg = .ok (.internal keys children)) (hc : cp ∈ children) : LeftBounded load cp :=
  fun p ks cs hu => h p ks cs ((Under.root.child hl hc).trans hu)

theorem leftBounded_leaf {pg : Nat} {cells : List Cell} {nx : ν} (hl : load pg = .ok (.leaf cells nx)) :
    LeftBounded load pg := by
  intro p keys children hu hp
  rcases hu.cases_head with rfl | ⟨_, _, _, hl', -, -⟩
  · rw [hl] at hp
    cases hp
  · rw [hl] at hl'
    cases hl'

theorem leftBounded_internal {pg : Nat} {keys : List Int} {children : List Nat}
    (hl : load pg = .ok (.internal keys children))
    (hj : ∀ (j : Nat) sep c cell, keys[j]? = some sep → children[j]? = some c → CellUnder load c cell → cell.1 < sep)
    (hc : ∀ c ∈ children, LeftBounded load c) : LeftBounded load pg := by
  intro p ks cs hu hp
  rcases hu.cases_head with rfl | ⟨keys', children', c, hl', hcm, hu'⟩
  · rw [hl] at hp
    cases hp
    exact hj
  · rw [hl] at hl'
    cases hl'
    exact hc c hcm p ks cs hu' hp

/-! ### Searching -/

theorem search_mono {fuel n : Nat} {k : Int} {r : Option Bytes} (h : search load fuel n k = .ok r) :
    search load (fuel + 1) n k = .ok r := by
  induction fuel generalizing n with
  | zero => cases h
  | succ fuel ih =>
    rw [search] at h ⊢
    rcases hn : load n with e | (⟨cells, nx⟩ | ⟨keys, children⟩)
    · rw [hn] at h
      cases h
    · rw [hn] at h
      exact h
    · rw [hn] at h
      simp only [bind, Except.bind] at h ⊢
      rcases hc : childAt children (bisectRight keys k) with e | c
      · rw [hc] at h
        cases h
      · rw [hc] at h
        exact ih h

theorem search_mono_le {fuel fuel' n : Nat} {k : Int} {r : Option Bytes} (hle : fuel ≤ fuel')
    (h : search load fuel n k = .ok r) : search load fuel' n k = .ok r := by
  induction hle with
  | refl => exact h
  | step _ ih => exact search_mono ih

theorem search_unique {fuel fuel' n : Nat} {k : Int} {r r' : Option Bytes} (h : search load fuel n k = .ok r)
    (h' : search load fuel' n k = .ok r') : r = r' := by
  have e := (search_mono_le (le_max_left fuel fuel') h).symm.trans (search_mono_le (le_max_right fuel fuel') h')
  simpa using e

theorem childAt_ok {children : List Nat} {i c : Nat} : childAt children i = .ok c ↔ children[i]? = some c := by
  unfold childAt
  split <;> rename_i h <;> simp [h]

theorem search_leaf {fuel pg : Nat} {cells : List Cell} {nx : ν} (hl : load pg = .ok (.leaf cells nx)) (k : Int) :
    search load (fuel + 1) pg k = .ok (leafLookup cells k) := by
  rw [search, hl]; rfl

theorem search_internal {fuel pg c : Nat} {keys : List Int} {children : List Nat} {k : Int}
    (hl : load pg = .ok (.internal keys children)) (hc : children[bisectRight keys k]? = some c) :
    search load (fuel + 1) pg k = search load fuel c k := by
  rw [search, hl]
  simp only [bind, Except.bind, childAt_ok.2 hc]

/-- A search that goes through an internal page continues in the child its key is routed to. -/
theorem search_internal_ok {fuel pg : Nat} {keys : List Int} {children : List Nat} {k : Int} {r : Option Bytes}
    (hl : load pg = .ok (.internal keys children)) (h : search load fuel pg k = .ok r) :
    ∃ fuel' c, children[bisectRight keys k]? = some c ∧ search load fuel' c k = .ok r := by
  rcases fuel with _ | fuel
  · cases h
  · rw [search, hl] at h
    simp only [bind, Except.bind] at h
    rcases hc : childAt children (bisectRight keys k) with e | c
    · rw [hc] at h
      cases h
    · rw [hc] at h
      exact ⟨fuel, c, childAt_ok.1 hc, h⟩

theorem cellUnder_of_search {fuel n : Nat} {k : Int} {v : Bytes} (h : search load fuel n k = .ok (some v)) :
    CellUnder load n (k, v) := by
  induction fuel generalizing n with
  | zero => cases h
  | succ fuel ih =>
    rcases hn : load n with e | (⟨cells, nx⟩ | ⟨keys, children⟩)
    · rw [search, hn] at h
      cases h
    · rw [search_leaf hn] at h
      exact (cellUnder_leaf hn).2 (leafLookup_eq_some (by simpa using h))
    · rw [search, hn] at h
      simp only [bind, Except.bind] at h
      rcases hc : childAt children (bisectRight keys k) with e | c
      · rw [hc] at h
        cases h
      · rw [hc] at h
        exact (cellUnder_internal hn).2 ⟨c, List.mem_of_getElem? (childAt_ok.1 hc), ih h⟩

/-! ### The scan of the chain -/

theorem scanStart_firstLeaf {fuel n q : Nat} (h : scanStart load none fuel n = .ok q) : FirstLeaf load n q := by
  induction fuel generalizing n with
  | zero => cases h
  | succ fuel ih =>
    rcases hn : load n with e | (⟨cells, nx⟩ | ⟨keys, children⟩)
    · rw [scanStart, hn] at h
      cases h
    · rw [scanStart, hn] at h
      cases h
      exact .leaf hn
    · rw [scanStart, hn] at h
      rcases children with _ | ⟨c, children⟩
      · cases h
      · exact .child hn (ih h)

theorem scanStart_mono_le {lo : Option Int} {fuel fuel' n q : Nat} (h : scanStart load lo fuel n = .ok q)
    (hle : fuel ≤ fuel') : scanStart load lo fuel' n = .ok q := by
  induction fuel generalizing fuel' n with
  | zero => cases h
  | succ fuel ih =>
    rcases fuel' with _ | fuel'
    · omega
    rw [scanStart] at h ⊢
    obtain ⟨nd, hnd, h⟩ := do_eq_ok.1 h
    refine do_eq_ok.2 ⟨nd, hnd, ?_⟩
    rcases nd with ⟨cells, nx⟩ | ⟨keys, children⟩
    · exact h
    · obtain ⟨c, hc, h⟩ := do_eq_ok.1 h
      exact do_eq_ok.2 ⟨c, hc, ih h (by omega)⟩

theorem FirstLeaf.unique {n q q' : Nat} (h : FirstLeaf load n q) (h' : FirstLeaf load n q') : q = q' := by
  induction h with
  | leaf hl =>
    rcases h' with hl' | ⟨hl', -⟩
    · rfl
    · rw [hl] at hl'
      cases hl'
  | child hl _ ih =>
    rcases h' with hl' | ⟨hl', h'⟩
    · rw [hl] at hl'
      cases hl'
    · rw [hl] at hl'
      cases hl'
      exact ih h'

section Chain

variable [Link ν]

theorem scanCells_none (cells : List Cell) : scanCells none none cells = (cells, true) := by
  induction cells with
  | nil => rfl
  | cons c cells ih => simp [scanCells, ih]

theorem scanChain_leaf {fuel n : Nat} {cells : List Cell} {nx : ν} (hl : load n = .ok (.leaf cells nx)) :
    scanChain load none none (fuel + 1) n =
      match Link.follow nx with
      | some m => (scanChain load none none fuel m).map (cells ++ ·)
      | none => .ok cells := by
  rw [scanChain, hl]
  simp only [bind, Except.bind, scanCells_none]
  rcases Link.follow nx with _ | m
  · rfl
  · rcases scanChain load none none fuel m with e | out <;> rfl

theorem ChainFrom.cases_head {n p : Nat} (h : ChainFrom load n p) :
    n = p ∨ ∃ m cells nx, load n = .ok (.leaf cells nx) ∧ Link.follow nx = some m ∧ ChainFrom load m p := by
  induction h with
  | head => exact .inl rfl
  | @next p q cells nx _ hl hf ih =>
    rcases ih with rfl | ⟨m, cells', nx', hl', hf', hc⟩
    · exact .inr ⟨q, cells, nx, hl, hf, .head⟩
    · exact .inr ⟨m, cells', nx', hl', hf', hc.next hl hf⟩

theorem ChainFrom.trans {a b c : Nat} (h : ChainFrom load a b) (h' : ChainFrom load b c) : ChainFrom load a c := by
  induction h' with
  | head => exact h
  | next _ hl hf ih => exact ih.next hl hf

theorem scanChain_unique {fuel fuel' n : Nat} {out out' : List Cell}
    (h : scanChain load none none fuel n = .ok out) (h' : scanChain load none none fuel' n = .ok out') : out = out' := by
  induction fuel generalizing fuel' n out out' with
  | zero => cases h
  | succ fuel ih =>
    rcases fuel' with _ | fuel'
    · cases h'
    rcases hn : load n with e | (⟨cells, nx⟩ | ⟨keys, children⟩)
    · rw [scanChain, hn] at h
      cases h
    · rw [scanChain_leaf hn] at h h'
      rcases hf : Link.follow nx with _ | m
      · rw [hf] at h h'
        exact Except.ok.inj (h.symm.trans h')
      · rw [hf] at h h'
        rcases hm : scanChain load none none fuel m with e | a
        · simp [hm, Except.map] at h
        rcases hm' : scanChain load none none fuel' m with e | b
        · simp [hm', Except.map] at h'
        obtain rfl : cells ++ a = out := by simpa [hm, Except.map] using h
        obtain rfl : cells ++ b = out' := by simpa [hm', Except.map] using h'
        rw [ih hm hm']
    · rw [scanChain, hn] at h
      cases h

/-- `rangeScan` is the descent followed by the scan of the chain. -/
theorem rangeScan_ok {fuel root : Nat} {lo hi : Option Int} {out : List Cell} :
    rangeScan load fuel root lo hi = .ok out ↔
      ∃ q, scanStart load lo fuel root = .ok q ∧ scanChain load lo hi fuel q = .ok out := by
  rw [rangeScan]
  rcases scanStart load lo fuel root with e | q <;> simp [bind, Except.bind]

theorem rangeScan_unique {fuel fuel' root : Nat} {out out' : List Cell}
    (h : rangeScan load fuel root none none = .ok out) (h' : rangeScan load fuel' root none none = .ok out') :
    out = out' := by
  obtain ⟨q, hq, hs⟩ := rangeScan_ok.1 h
  obtain ⟨q', hq', hs'⟩ := rangeScan_ok.1 h'
  obtain rfl := (scanStart_firstLeaf hq).unique (scanStart_firstLeaf hq')
  exact scanChain_unique hs hs'

/-- A complete scan yields the cells of the chain's leaves. -/
theorem mem_scanChain {fuel n : Nat} {out : List Cell} (h : scanChain load none none fuel n = .ok out) {c : Cell} :
    c ∈ out ↔ ∃ p cells nx, ChainFrom load n p ∧ load p = .ok (.leaf cells nx) ∧ c ∈ cells := by
  induction fuel generalizing n out with
  | zero => cases h
  | succ fuel ih =>
    rcases hn : load n with e | (⟨cells, nx⟩ | ⟨keys, children⟩)
    · rw [scanChain, hn] at h
      cases h
    · rw [scanChain_leaf hn] at h
      rcases hf : Link.follow nx with _ | m
      · rw [hf] at h
        cases h
        constructor
        · exact fun hc => ⟨n, _, nx, .head, hn, hc⟩
        · rintro ⟨p, cells', nx', hp, hl, hc⟩
          rcases hp.cases_head with rfl | ⟨m, cells'', nx'', hl', hf', -⟩
          · rw [hn] at hl
            cases hl
            exact hc
          · rw [hn] at hl'
            cases hl'
            simp [hf] at hf'
      · rw [hf] at h
        rcases hm : scanChain load none none fuel m with e | out'
        · simp [hm, Except.map] at h
        · obtain rfl : cells ++ out' = out := by simpa [hm, Except.map] using h
          rw [List.mem_append, ih hm]
          constructor
          · rintro (hc | ⟨p, cells', nx', hp, hl, hc⟩)
            · exact ⟨n, _, nx, .head, hn, hc⟩
            · exact ⟨p, cells', nx', (ChainFrom.head.next hn hf).trans hp, hl, hc⟩
          · rintro ⟨p, cells', nx', hp, hl, hc⟩
            rcases hp.cases_head with rfl | ⟨m', cells'', nx'', hl', hf', hp'⟩
            · rw [hn] at hl
              cases hl
              exact .inl hc
            · rw [hn] at hl'
              cases hl'
              obtain rfl : m = m' := by simpa [hf] using hf'
              exact .inr ⟨p, cells', nx', hp', hl, hc⟩
    · rw [scanChain, hn] at h
      cases h

theorem mem_rangeScan {fuel root : Nat} {out : List Cell} (h : rangeScan load fuel root none none = .ok out)
    {c : Cell} : c ∈ out ↔ CellOnChain load root c := by
  obtain ⟨q, hq, hs⟩ := rangeScan_ok.1 h
  rw [mem_scanChain hs]
  constructor
  · rintro ⟨p, cells, nx, hp, hl, hc⟩
    exact ⟨q, p, cells, nx, scanStart_firstLeaf hq, hp, hl, hc⟩
  · rintro ⟨q', p, cells, nx, hq', hp, hl, hc⟩
    obtain rfl := (scanStart_firstLeaf hq).unique hq'
    exact ⟨p, cells, nx, hp, hl, hc⟩

end Chain

/-! ### Checked trees -/

/-- A child right of a separator whose cells ascend has no key below the separator. -/
def RightBounded (keys : List Int) (css : List (List Cell)) : Prop :=
  ∀ (j : Nat) sep cells, keys[j]? = some sep → css[j + 1]? = some cells → Ascending cells →
    ∀ c ∈ cells, sep ≤ c.1

/-- The subtree at `pg` has at most `n` levels, passes the checks of every node in it, and its leaves hold
`cells` in tree order. -/
def Checked (load : Nat → Except PyError (Node ν)) : Nat → Nat → List Cell → Prop
  | 0, _, _ => False
  | n + 1, pg, cells =>
    (∃ nx, load pg = .ok (.leaf cells nx) ∧ Ascending cells) ∨
    ∃ keys children css, load pg = .ok (.internal keys children) ∧ children.length = keys.length + 1 ∧
      keys.Pairwise (· < ·) ∧ List.Forall₂ (Checked load n) children css ∧ RightBounded keys css ∧
      cells = css.flatten

theorem Checked.cellUnder {n pg : Nat} {cells : List Cell} (h : Checked load n pg cells) {c : Cell} :
    CellUnder load pg c ↔ c ∈ cells := by
  induction n generalizing pg cells with
  | zero => exact h.elim
  | succ n ih =>
    rcases h with ⟨nx, hl, -⟩ | ⟨keys, children, css, hl, -, -, hf, -, rfl⟩
    · exact cellUnder_leaf hl
    · rw [cellUnder_internal hl, List.mem_flatten]
      constructor
      · rintro ⟨cp, hcp, hc⟩
        obtain ⟨j, hj⟩ := List.getElem?_of_mem hcp
        obtain ⟨cs, hcs, hch⟩ := forall₂_getElem? hf hj
        exact ⟨cs, List.mem_of_getElem? hcs, (ih hch).1 hc⟩
      · rintro ⟨cs, hcs, hc⟩
        obtain ⟨j, hj⟩ := List.getElem?_of_mem hcs
        obtain ⟨cp, hcp, hch⟩ := forall₂_getElem?' hf hj
        exact ⟨cp, List.mem_of_getElem? hcp, (ih hch).2 hc⟩

/-- On a checked tree whose separators also bound their left subtrees, the cells ascend and every search
for the key of a cell finds it. -/
theorem Checked.sound {n pg : Nat} {cells : List Cell} (h : Checked load n pg cells) (hb : LeftBounded load pg) :
    Ascending cells ∧ ∀ c ∈ cells, search load n pg c.1 = .ok (some c.2) := by
  induction n generalizing pg cells with
  | zero => exact h.elim
  | succ n ih =>
    rcases h with ⟨nx, hl, ha⟩ | ⟨keys, children, css, hl, hlen, hk, hf, hr, rfl⟩
    · exact ⟨ha, fun c hc => by rw [search_leaf hl, leafLookup_of_mem ha hc]⟩
    have hsub : ∀ (j : Nat) cs, css[j]? = some cs → Ascending cs ∧
        (∀ sep, keys[j]? = some sep → ∀ c ∈ cs, c.1 < sep) ∧
        ∃ cp, children[j]? = some cp ∧ ∀ c ∈ cs, search load n cp c.1 = .ok (some c.2) := by
      intro j cs hj
      obtain ⟨cp, hcp, hch⟩ := forall₂_getElem?' hf hj
      obtain ⟨ha, hs⟩ := ih hch (hb.child hl (List.mem_of_getElem? hcp))
      exact ⟨ha, fun sep hsep c hc => hb pg keys children .root hl j sep cp c hsep hcp (hch.cellUnder.2 hc),
        cp, hcp, hs⟩
    have hright : ∀ (j : Nat) sep cs, keys[j]? = some sep → css[j + 1]? = some cs → ∀ c ∈ cs, sep ≤ c.1 :=
      fun j sep cs hsep hcs => hr j sep cs hsep hcs (hsub _ _ hcs).1
    have hcl : css.length = keys.length + 1 := by rw [← hf.length_eq, hlen]
    constructor
    · refine Ascending.flatten.2 ⟨fun cs hcs => ?_, List.pairwise_iff_getElem.2 fun i j hi hj hij a ha b hb' => ?_⟩
      · obtain ⟨j, hj⟩ := List.getElem?_of_mem hcs
        exact (hsub j cs hj).1
      · obtain ⟨j, rfl⟩ : ∃ m, j = m + 1 := ⟨j - 1, by omega⟩
        have hik : i < keys.length := by omega
        have hjk : j < keys.length := by omega
        have hai : a.1 < keys[i] :=
          (hsub i _ (List.getElem?_eq_getElem hi)).2.1 _ (List.getElem?_eq_getElem hik) a ha
        have hjb : keys[j] ≤ b.1 :=
          hright j _ _ (List.getElem?_eq_getElem hjk) (List.getElem?_eq_getElem hj) b hb'
        have hij' : keys[i] ≤ keys[j] := by
          rcases Nat.lt_or_ge i j with h | h
          · exact (List.pairwise_iff_getElem.1 hk i j hik hjk h).le
          · obtain rfl : i = j := by omega
            exact le_rfl
        omega
    · intro c hc
      obtain ⟨cs, hcs, hc⟩ := List.mem_flatten.1 hc
      obtain ⟨j, hj⟩ := List.getElem?_of_mem hcs
      obtain ⟨-, hleft, cp, hcp, hs⟩ := hsub j cs hj
      have hjl : j < css.length := (List.getElem?_eq_some_iff.1 hj).1
      have hroute : bisectRight keys c.1 = j := by
        refine bisectRight_eq_of hk (by omega) (fun sep hsep => hleft sep hsep c hc) ?_
        rintro i rfl sep hsep
        exact hright i sep cs hsep hj c hc
      rw [search_internal hl (hroute ▸ hcp)]
      exact hs c hc

/-- On a checked tree with ascending cells, a search that finds the keys of all cells can only be routed
by separators that bound their left subtrees. -/
theorem Checked.leftBounded {n pg : Nat} {cells : List Cell} (h : Checked load n pg cells) (ha : Ascending cells)
    (hs : ∀ c ∈ cells, ∃ fuel v, search load fuel pg c.1 = .ok (some v)) : LeftBounded load pg := by
  induction n generalizing pg cells with
  | zero => exact h.elim
  | succ n ih =>
    rcases h with ⟨nx, hl, -⟩ | ⟨keys, children, css, hl, hlen, hk, hf, hr, rfl⟩
    · exact leftBounded_leaf hl
    obtain ⟨hasc, hdisj⟩ := Ascending.flatten.1 ha
    have hroute : ∀ (j : Nat) cs c, css[j]? = some cs → c ∈ cs → bisectRight keys c.1 = j ∧
        ∀ cp, children[j]? = some cp → ∃ fuel v, search load fuel cp c.1 = .ok (some v) := by
      intro j cs c hj hc
      obtain ⟨fuel, v, hv⟩ := hs c (List.mem_flatten.2 ⟨cs, List.mem_of_getElem? hj, hc⟩)
      obtain ⟨fuel', cp', hcp', hv'⟩ := search_internal_ok hl hv
      obtain ⟨cs', hcs', hch'⟩ := forall₂_getElem? hf hcp'
      have hc' : (c.1, v) ∈ cs' := hch'.cellUnder.1 (cellUnder_of_search hv')
      obtain ⟨hi, rfl⟩ := List.getElem?_eq_some_iff.1 hcs'
      obtain ⟨hj', rfl⟩ := List.getElem?_eq_some_iff.1 hj
      have hij : bisectRight keys c.1 = j := by
        rcases Nat.lt_trichotomy (bisectRight keys c.1) j with h | h | h
        · exact absurd (List.pairwise_iff_getElem.1 hdisj _ _ hi hj' h _ hc' _ hc) (lt_irrefl _)
        · exact h
        · exact absurd (List.pairwise_iff_getElem.1 hdisj _ _ hj' hi h _ hc _ hc') (lt_irrefl _)
      refine ⟨hij, fun cp hcp => ⟨fuel', v, ?_⟩⟩
      rw [hij, hcp] at hcp'
      cases hcp'
      exact hv'
    refine leftBounded_internal hl (fun j sep cp cell hsep hcp hcell => ?_) fun cp hcp => ?_
    · obtain ⟨cs, hcs, hch⟩ := forall₂_getElem? hf hcp
      exact lt_of_bisectRight hk (hroute j cs cell hcs (hch.cellUnder.1 hcell)).1.le hsep
    · obtain ⟨j, hj⟩ := List.getElem?_of_mem hcp
      obtain ⟨cs, hcs, hch⟩ := forall₂_getElem? hf hj
      exact ih hch (hasc cs (List.mem_of_getElem? hcs)) fun c hc => (hroute j cs c hcs hc).2 cp hj

/-- A checked tree whose chain carries the keys of the tree in tree order routes correctly exactly when
the two unchecked conditions hold. -/
theorem Checked.routed_iff [Link ν] {n root fuel : Nat} {cells out : List Cell} (h : Checked load n root cells)
    (hscan : rangeScan load fuel root none none = .ok out) (hkeys : out.map Prod.fst = cells.map Prod.fst) :
    Routed load root ↔ LeftBounded load root ∧ ChainInTree load root := by
  constructor
  · rintro ⟨fuel', out', hout', ha, hs⟩
    obtain rfl := rangeScan_unique hscan hout'
    constructor
    · refine h.leftBounded (Ascending.keys.2 (hkeys ▸ Ascending.keys.1 ha)) fun c hc => ?_
      have hmem : c.1 ∈ out.map Prod.fst := hkeys ▸ List.mem_map_of_mem hc
      obtain ⟨c', hc', e⟩ := List.mem_map.1 hmem
      obtain ⟨fuel, hv⟩ := hs c' hc'
      exact ⟨fuel, c'.2, e ▸ hv⟩
    · intro c hc
      obtain ⟨fuel, hv⟩ := hs c ((mem_rangeScan hout').2 hc)
      exact cellUnder_of_search hv
  · rintro ⟨hb, hchain⟩
    obtain ⟨ha, hs⟩ := h.sound hb
    refine ⟨fuel, out, hscan, Ascending.keys.2 (hkeys ▸ Ascending.keys.1 ha), fun c hc => ⟨n, hs c ?_⟩⟩
    exact h.cellUnder.1 (hchain c ((mem_rangeScan hscan).1 hc))

/-- A key that the chain carries and a search misses. -/
theorem not_routed [Link ν] {root fuel fuel' : Nat} {out : List Cell}
    (hscan : rangeScan load fuel root none none = .ok out) {c : Cell} (hc : c ∈ out)
    (hs : search load fuel' root c.1 = .ok none) : ¬ Routed load root := by
  rintro ⟨fuel₁, out', hout', -, h⟩
  obtain rfl := rangeScan_unique hscan hout'
  obtain ⟨fuel₂, hv⟩ := h c hc
  exact absurd (search_unique hs hv) (by simp)

end Graph

/-! ### Running a check -/

theorem ensure_eq_ok {p : Prop} [Decidable p] {text : String} {u : Unit} : ensure p text = .ok u ↔ p := by
  unfold ensure
  split <;> simp_all

theorem liftPy_eq_ok {α : Type} {x : Except PyError α} {a : α} : liftPy x = .ok a ↔ x = .ok a := by
  rcases x with e | b <;> simp [liftPy]

/-- Local checks of an internal page whose subtrees are checked. -/
theorem checked_internal {ν : Type} {load : Nat → Except PyError (Node ν)} {fuel pg : Nat} {keys : List Int}
    {children : List Nat} {ws : List Walk} (hl : load pg = .ok (.internal keys children))
    (hlen : children.length = keys.length + 1) (hk : keys.Pairwise (· < ·))
    (hsub : List.Forall₂ (fun cp w => ∃ cells, Checked load fuel cp cells ∧ w.walked = cells.map Prod.fst) children ws)
    (hsep : ∀ (j : Nat) sep w, keys[j]? = some sep → ws[j + 1]? = some w → w.walked.Pairwise (· < ·) →
      ∀ k ∈ w.walked, sep ≤ k) :
    ∃ cells, Checked load (fuel + 1) pg cells ∧ ws.flatMap Walk.walked = cells.map Prod.fst := by
  obtain ⟨css, hcss, hmap⟩ : ∃ css, List.Forall₂ (Checked load fuel) children css ∧
      ws.map Walk.walked = css.map (List.map Prod.fst) := by
    clear hlen hsep hl
    induction hsub with
    | nil => exact ⟨[], .nil, rfl⟩
    | cons h _ ih =>
      obtain ⟨cells, hc, hw⟩ := h
      obtain ⟨css, hcss, hmap⟩ := ih
      exact ⟨cells :: css, .cons hc hcss, by simp [hw, hmap]⟩
  refine ⟨css.flatten, .inr ⟨keys, children, css, hl, hlen, hk, hcss, ?_, rfl⟩, ?_⟩
  · intro j sep cells hj hcells ha c hc
    have hw : (ws.map Walk.walked)[j + 1]? = some (cells.map Prod.fst) := by
      rw [hmap, List.getElem?_map, hcells]; rfl
    rw [List.getElem?_map, Option.map_eq_some_iff] at hw
    obtain ⟨w, hw, e⟩ := hw
    exact hsep j sep w hj hw (e ▸ Ascending.keys.1 ha) c.1 (e ▸ List.mem_map_of_mem hc)
  · rw [List.flatMap, hmap, List.map_flatten]

/-- More fuel does not change a scan that ends. -/
theorem scanChain_mono_le {ν : Type} [Link ν] {load : Nat → Except PyError (Node ν)} {fuel fuel' n : Nat}
    {cells : List Cell} (h : scanChain load none none fuel n = .ok cells) (hle : fuel ≤ fuel') :
    scanChain load none none fuel' n = .ok cells := by
  induction fuel generalizing fuel' n cells with
  | zero => cases h
  | succ fuel ih =>
    rcases fuel' with _ | fuel'
    · omega
    rcases hn : load n with e | (⟨cs, nx⟩ | ⟨keys, children⟩)
    · rw [scanChain, hn] at h
      cases h
    · rw [scanChain_leaf hn] at h ⊢
      rcases hf : Link.follow nx with _ | m
      · rw [hf] at h
        exact h
      · rw [hf] at h
        obtain ⟨out, hout, e⟩ := map_eq_ok.1 h
        exact map_eq_ok.2 ⟨out, ih hout (by omega), e⟩
    · rw [scanChain, hn] at h
      cases h

namespace BTree

variable {load : Nat → Except PyError PyNode}

theorem ascending_of_sortedSet {ks : List Int} (h : ks = sortedSet ks) : ks.Pairwise (· < ·) := by
  have hle : ks.Pairwise (· ≤ ·) := h ▸ List.pairwise_insertionSort (· ≤ ·) ks.dedup
  have hnd : ks.Nodup := h ▸ (List.perm_insertionSort (· ≤ ·) ks.dedup).nodup_iff.2 ks.nodup_dedup
  exact (hle.and hnd).imp fun ⟨hab, hne⟩ => lt_of_le_of_ne hab hne

theorem separatorsSafe_ok {pg j : Nat} {keys : List Int} {mins : List (Option Int)}
    (h : separatorsSafe pg j keys mins = .ok ()) :
    ∀ (i : Nat) k, keys[i]? = some k → ∃ m, mins[i]? = some (some m) ∧ k ≤ m := by
  induction keys generalizing j mins with
  | nil => simp
  | cons k keys ih =>
    rcases mins with _ | ⟨_ | m, mins⟩
    · cases h
    · cases h
    · obtain ⟨u, hkm, h⟩ := do_eq_ok.1 h
      intro i k' hi
      rcases i with _ | i
      · obtain rfl : k = k' := by simpa using hi
        exact ⟨m, rfl, ensure_eq_ok.1 hkm⟩
      · exact ih h i k' (by simpa using hi)

theorem walk_checked {fuel pg depth : Nat} {w : Walk} (h : walk load fuel pg depth = .ok w) :
    (∃ cells, Checked load fuel pg cells ∧ w.walked = cells.map Prod.fst) ∧
      ∀ k ∈ w.walked, ∃ m, w.lo = some m ∧ m ≤ k := by
  induction fuel generalizing pg depth w with
  | zero => cases h
  | succ fuel ih =>
    rw [walk] at h
    obtain ⟨nd, hnd, h⟩ := do_eq_ok.1 h
    have hl := liftPy_eq_ok.1 hnd
    rcases nd with ⟨cells, nx⟩ | ⟨keys, children⟩
    · obtain ⟨_, hs, h⟩ := do_eq_ok.1 h
      have hs := ascending_of_sortedSet (ensure_eq_ok.1 hs)
      cases h
      refine ⟨⟨cells, .inl ⟨nx, hl, Ascending.keys.2 hs⟩, rfl⟩, fun k hk => ?_⟩
      rcases e : cells.map Prod.fst with _ | ⟨m, ks⟩
      · simp [e] at hk
      · rw [e] at hs hk
        refine ⟨m, rfl, ?_⟩
        rcases List.mem_cons.1 hk with rfl | hk
        · exact le_rfl
        · exact ((List.pairwise_cons.1 hs).1 k hk).le
    · obtain ⟨_, hlen, h⟩ := do_eq_ok.1 h
      obtain ⟨_, hk, h⟩ := do_eq_ok.1 h
      obtain ⟨bounds, hb, h⟩ := do_eq_ok.1 h
      obtain ⟨_, hsafe, h⟩ := do_eq_ok.1 h
      cases h
      have hb := mapM_eq_ok.1 hb
      constructor
      · refine checked_internal hl (ensure_eq_ok.1 hlen) (ascending_of_sortedSet (ensure_eq_ok.1 hk))
          (hb.imp fun _ _ hw => (ih hw).1) fun j sep w hj hw _ k hkw => ?_
        obtain ⟨m, hm, hsm⟩ := separatorsSafe_ok hsafe j sep hj
        rw [List.getElem?_map, List.getElem?_tail, hw] at hm
        obtain ⟨cp, -, hcw⟩ := forall₂_getElem?' hb hw
        obtain ⟨m', hm', hmk⟩ := (ih hcw).2 k hkw
        obtain rfl : m' = m := by simpa [hm'] using hm
        exact hsm.trans hmk
      · intro k hk
        obtain ⟨w, hw, hkw⟩ := List.mem_flatMap.1 hk
        obtain ⟨j, hj⟩ := List.getElem?_of_mem hw
        obtain ⟨cp, -, hcw⟩ := forall₂_getElem?' hb hj
        obtain ⟨m', hm', hmk⟩ := (ih hcw).2 k hkw
        have hmem : m' ∈ bounds.filterMap Walk.lo := List.mem_filterMap.2 ⟨w, hw, hm'⟩
        rcases hmin : (bounds.filterMap Walk.lo).min? with _ | m
        · rw [List.min?_eq_none_iff.1 hmin] at hmem
          cases hmem
        · exact ⟨m, rfl, ((List.min?_eq_some_iff.1 hmin).2 m' hmem).trans hmk⟩

/-- The chain walk reads the keys that a scan of the chain yields. -/
theorem scan_of_linked {fuel page : Nat} {seen : List Nat} {ks : List Int}
    (h : linked load fuel page seen = .ok ks) :
    ∃ out, scanChain load none none fuel page = .ok out ∧ out.map Prod.fst = ks := by
  induction fuel generalizing page seen ks with
  | zero => cases h
  | succ fuel ih =>
    rw [linked] at h
    obtain ⟨nd, hnd, h⟩ := do_eq_ok.1 h
    have hl := liftPy_eq_ok.1 hnd
    rcases nd with ⟨cells, nx⟩ | ⟨keys, children⟩
    · obtain ⟨_, -, h⟩ := do_eq_ok.1 h
      rw [scanChain_leaf hl]
      rcases nx with _ | page'
      · cases h
        exact ⟨cells, rfl, rfl⟩
      · obtain ⟨ks', hks, h⟩ := do_eq_ok.1 h
        cases h
        obtain ⟨out, hout, rfl⟩ := ih hks
        exact ⟨cells ++ out, map_eq_ok.2 ⟨out, hout, rfl⟩, List.map_append⟩
    · cases h

/-- What a check that returns has established. -/
theorem checked_of_check {fuel root : Nat} {r : CheckReport} (h : check load fuel root = .ok r) :
    ∃ cells out, Checked load fuel root cells ∧ rangeScan load fuel root none none = .ok out ∧
      out.map Prod.fst = cells.map Prod.fst := by
  obtain ⟨w, hw, h⟩ := do_eq_ok.1 h
  obtain ⟨page, hp, h⟩ := do_eq_ok.1 h
  obtain ⟨ks, hks, h⟩ := do_eq_ok.1 h
  obtain ⟨_, heq, -⟩ := do_eq_ok.1 h
  obtain ⟨⟨cells, hc, hwalk⟩, -⟩ := walk_checked hw
  obtain ⟨out, hout, hkeys⟩ := scan_of_linked hks
  exact ⟨cells, out, hc, rangeScan_ok.2 ⟨page, liftPy_eq_ok.1 hp, hout⟩,
    hkeys.trans ((ensure_eq_ok.1 heq).trans hwalk)⟩

end BTree

namespace Native

variable {load : Nat → Except PyError CNode}

theorem ascending_of_strictlyAscending {ks : List Int} (h : strictlyAscending ks = true) : ks.Pairwise (· < ·) := by
  induction ks with
  | nil => exact .nil
  | cons a ks ih =>
    rcases ks with _ | ⟨b, ks⟩
    · exact List.pairwise_singleton _ _
    · simp only [strictlyAscending, Bool.and_eq_true, decide_eq_true_eq] at h
      refine List.pairwise_cons.2 ⟨fun c hc => ?_, ih h.2⟩
      rcases List.mem_cons.1 hc with rfl | hc
      · exact h.1
      · exact h.1.trans ((List.pairwise_cons.1 (ih h.2)).1 c hc)

theorem separatorsSafe_ok {pg : Nat} {keys : List Int} {mins : List (Option Int)}
    (h : separatorsSafe pg keys mins = .ok ()) :
    ∀ (i : Nat) k, keys[i]? = some k → ∃ m, mins[i]? = some (some m) ∧ k ≤ m := by
  induction keys generalizing mins with
  | nil => simp
  | cons k keys ih =>
    rcases mins with _ | ⟨_ | m, mins⟩
    · cases h
    · cases h
    · obtain ⟨u, hkm, h⟩ := do_eq_ok.1 h
      intro i k' hi
      rcases i with _ | i
      · obtain rfl : k = k' := by simpa using hi
        exact ⟨m, rfl, not_lt.1 (ensure_eq_ok.1 hkm)⟩
      · exact ih h i k' (by simpa using hi)

theorem head?_flatMap_walked {ws : List Walk} (h : ∀ w ∈ ws, w.lo = w.walked.head?) :
    (ws.filterMap Walk.lo).head? = (ws.flatMap Walk.walked).head? := by
  induction ws with
  | nil => rfl
  | cons w ws ih =>
    have hw := h w (by simp)
    have ih := ih fun w' hw' => h w' (by simp [hw'])
    rcases e : w.walked with _ | ⟨k, ks⟩
    · rw [e] at hw
      simpa [List.filterMap_cons, hw, e] using ih
    · rw [e] at hw
      simp [hw, e]

theorem go_checked {fuel pg depth : Nat} {isRoot : Bool} {w : Walk} (h : go load fuel pg depth isRoot = .ok w) :
    (∃ cells, Checked load fuel pg cells ∧ w.walked = cells.map Prod.fst) ∧ w.lo = w.walked.head? := by
  induction fuel generalizing pg depth isRoot w with
  | zero => cases h
  | succ fuel ih =>
    rw [go] at h
    obtain ⟨nd, hnd, h⟩ := do_eq_ok.1 h
    have hl := liftPy_eq_ok.1 hnd
    rcases nd with ⟨cells, nx⟩ | ⟨keys, children⟩
    · obtain ⟨_, hs, h⟩ := do_eq_ok.1 h
      have hs := ascending_of_strictlyAscending (ensure_eq_ok.1 hs)
      obtain rfl : _ = w := by
        split at h
        · obtain ⟨_, -, h⟩ := do_eq_ok.1 h
          obtain ⟨_, -, h⟩ := do_eq_ok.1 h
          exact Except.ok.inj h
        · exact Except.ok.inj h
      exact ⟨⟨cells, .inl ⟨nx, hl, Ascending.keys.2 hs⟩, rfl⟩, rfl⟩
    · obtain ⟨_, hlen, h⟩ := do_eq_ok.1 h
      obtain ⟨_, hk, h⟩ := do_eq_ok.1 h
      obtain ⟨bounds, hb, hsafe, rfl⟩ : ∃ bounds, (children.mapM fun c => go load fuel c (depth + 1) false) = .ok bounds ∧
          separatorsSafe pg keys (bounds.tail.map Walk.lo) = .ok () ∧
          (⟨(bounds.filterMap Walk.lo).head?, (bounds.filterMap Walk.hi).getLast?,
            bounds.flatMap Walk.walked, bounds.flatMap Walk.depths⟩ : Walk) = w := by
        split at h
        · obtain ⟨_, -, h⟩ := do_eq_ok.1 h
          obtain ⟨_, -, h⟩ := do_eq_ok.1 h
          obtain ⟨bounds, hb, h⟩ := do_eq_ok.1 h
          obtain ⟨_, hsafe, h⟩ := do_eq_ok.1 h
          exact ⟨bounds, hb, hsafe, Except.ok.inj h⟩
        · obtain ⟨bounds, hb, h⟩ := do_eq_ok.1 h
          obtain ⟨_, hsafe, h⟩ := do_eq_ok.1 h
          exact ⟨bounds, hb, hsafe, Except.ok.inj h⟩
      have hb := mapM_eq_ok.1 hb
      have hlo : ∀ w ∈ bounds, w.lo = w.walked.head? := by
        intro w hw
        obtain ⟨j, hj⟩ := List.getElem?_of_mem hw
        obtain ⟨cp, -, hcw⟩ := forall₂_getElem?' hb hj
        exact (ih hcw).2
      refine ⟨checked_internal hl (ensure_eq_ok.1 hlen) (ascending_of_strictlyAscending (ensure_eq_ok.1 hk))
        (hb.imp fun _ _ hw => (ih hw).1) fun j sep w hj hw ha k hkw => ?_, head?_flatMap_walked hlo⟩
      obtain ⟨m, hm, hsm⟩ := separatorsSafe_ok hsafe j sep hj
      rw [List.getElem?_map, List.getElem?_tail, hw, Option.map_some, hlo w (List.mem_of_getElem? hw),
        Option.some.injEq, List.head?_eq_some_iff] at hm
      obtain ⟨ks, e⟩ := hm
      rw [e] at ha hkw
      rcases List.mem_cons.1 hkw with rfl | hkw
      · exact hsm
      · exact hsm.trans ((List.pairwise_cons.1 ha).1 k hkw).le

/-- The chain walk reads the keys that a scan of the chain yields. -/
theorem scan_of_linked {hops page : Nat} {ks : List Int} (h : linked load hops page = .ok ks) :
    ∃ out, scanChain load none none (hops + 1) page = .ok out ∧ out.map Prod.fst = ks := by
  induction hops generalizing page ks with
  | zero =>
    rw [linked] at h
    obtain ⟨nd, hnd, h⟩ := do_eq_ok.1 h
    have hl := liftPy_eq_ok.1 hnd
    rcases nd with ⟨cells, nx⟩ | ⟨keys, children⟩
    · rcases hf : Link.follow nx with _ | m
      · obtain rfl : cells.map Prod.fst = ks := by simpa [hf, pure, Except.pure] using h
        exact ⟨cells, by rw [scanChain_leaf hl, hf], rfl⟩
      · simp [hf] at h
    · cases h
  | succ hops ih =>
    rw [linked] at h
    obtain ⟨nd, hnd, h⟩ := do_eq_ok.1 h
    have hl := liftPy_eq_ok.1 hnd
    rcases nd with ⟨cells, nx⟩ | ⟨keys, children⟩
    · rcases hf : Link.follow nx with _ | m
      · obtain rfl : cells.map Prod.fst = ks := by simpa [hf, pure, Except.pure] using h
        exact ⟨cells, by rw [scanChain_leaf hl, hf], rfl⟩
      · simp only [hf] at h
        obtain ⟨ks', hks, h⟩ := do_eq_ok.1 h
        cases h
        obtain ⟨out, hout, rfl⟩ := ih hks
        refine ⟨cells ++ out, ?_, List.map_append⟩
        rw [scanChain_leaf hl, hf]
        exact map_eq_ok.2 ⟨out, hout, rfl⟩
    · cases h

/-- What a check that returns has established. -/
theorem checked_of_check {fuel root : Nat} {r : CheckReport} (h : check load fuel root = .ok r) :
    ∃ n cells out, Checked load fuel root cells ∧ rangeScan load n root none none = .ok out ∧
      out.map Prod.fst = cells.map Prod.fst := by
  obtain ⟨w, hw, h⟩ := do_eq_ok.1 h
  obtain ⟨page, hp, h⟩ := do_eq_ok.1 h
  obtain ⟨ks, hks, h⟩ := do_eq_ok.1 h
  obtain ⟨_, heq, -⟩ := do_eq_ok.1 h
  obtain ⟨⟨cells, hc, hwalk⟩, -⟩ := go_checked hw
  obtain ⟨out, hout, hkeys⟩ := scan_of_linked hks
  set n := max fuel ((w.walked.length + 2) % 2 ^ 32 + 1)
  refine ⟨n, cells, out, hc, rangeScan_ok.2 ⟨page, ?_, scanChain_mono_le hout (le_max_right _ _)⟩,
    hkeys.trans ((ensure_eq_ok.1 heq).trans hwalk)⟩
  exact scanStart_mono_le (liftPy_eq_ok.1 hp) (le_max_left _ _)

end Native

/-! ### The pages of a file -/

/-- `_load` of the Python engine on the page images `get` returns. -/
def BTree.load (get : Nat → Except PyError Bytes) (n : Nat) : Except PyError PyNode := do
  nodeFromBytes (← get n)

/-- `BTree::load` of the C++ engine. -/
def Native.load (get : Nat → Except PyError Bytes) (n : Nat) : Except PyError CNode := do
  Native.nodeFromBytes (← get n)

/-- Both checkers, on the same page images: where a check returns, routing is correct exactly when the
left subtrees are bounded by their separators and the chain carries no cell that is not in the tree. -/
theorem routed_iff_of_check (get : Nat → Except PyError Bytes) (root fuel : Nat) (r : CheckReport) :
    (BTree.check (BTree.load get) fuel root = .ok r →
      (Routed (BTree.load get) root ↔ LeftBounded (BTree.load get) root ∧ ChainInTree (BTree.load get) root)) ∧
    (Native.check (Native.load get) fuel root = .ok r →
      (Routed (Native.load get) root ↔ LeftBounded (Native.load get) root ∧ ChainInTree (Native.load get) root)) := by
  constructor
  · intro h
    obtain ⟨cells, out, hc, hout, hkeys⟩ := BTree.checked_of_check h
    exact hc.routed_iff hout hkeys
  · intro h
    obtain ⟨n, cells, out, hc, hout, hkeys⟩ := Native.checked_of_check h
    exact hc.routed_iff hout hkeys

/-- Leaves 2 and 3 left and right of the separator 5; key 10 lies in leaf 2. -/
def misroutedPages : Nat → Except PyError Bytes
  | 1 => .ok (Node.internal [5] [2, 3] : PyNode).encode
  | 2 => .ok (Node.leaf [(1, List.replicate 700 0), (10, List.replicate 700 0)] (some 3) : PyNode).encode
  | 3 => .ok (Node.leaf [(7, List.replicate 1400 0)] none : PyNode).encode
  | _ => .error .indexError

theorem check_misroutedPages :
    BTree.check (BTree.load misroutedPages) 5 1 = .ok ⟨3, true⟩ ∧ ¬ Routed (BTree.load misroutedPages) 1 ∧
      Native.check (Native.load misroutedPages) 5 1 = .ok ⟨3, true⟩ ∧ ¬ Routed (Native.load misroutedPages) 1 := by
  have hpy : rangeScan (BTree.load misroutedPages) 5 1 none none =
      .ok [(1, List.replicate 700 0), (10, List.replicate 700 0), (7, List.replicate 1400 0)] := by decide +kernel
  have hnat : rangeScan (Native.load misroutedPages) 5 1 none none =
      .ok [(1, List.replicate 700 0), (10, List.replicate 700 0), (7, List.replicate 1400 0)] := by decide +kernel
  have hmiss : search (BTree.load misroutedPages) 5 1 10 = .ok none := by decide +kernel
  have hmiss' : search (Native.load misroutedPages) 5 1 10 = .ok none := by decide +kernel
  refine ⟨by decide +kernel, ?_, by decide +kernel, ?_⟩
  · exact not_routed hpy (.tail _ (.head _)) hmiss
  · exact not_routed hnat (.tail _ (.head _)) hmiss'

section Witness

variable {ν : Type} [Link ν] {load : Nat → Except PyError (Node ν)} {xs ys : List Cell} {x y : ν}

/-- A root over two leaves, whose chain is these leaves. -/
theorem bounded_of_twoLeaves (hroot : load 1 = .ok (.internal [5] [2, 3])) (hx : load 2 = .ok (.leaf xs x))
    (hy : load 3 = .ok (.leaf ys y)) (hxy : Link.follow x = some 3) (hend : Link.follow y = none) (hlt : ∀ c ∈ xs, c.1 < 5) :
    LeftBounded load 1 ∧ ChainInTree load 1 := by
  have hleft : ∀ p, Under load 2 p → p = 2 := by
    intro p hp
    induction hp with
    | root => rfl
    | child _ hload _ ih =>
      rw [ih, hx] at hload
      cases hload
  have hpages : ∀ p, Under load 1 p → p = 1 ∨ p = 2 ∨ p = 3 := by
    intro p hp
    induction hp with
    | root => exact .inl rfl
    | child _ hload hc ih =>
      rcases ih with rfl | rfl | rfl
      · cases hroot.symm.trans hload
        simpa using Or.inr hc
      · cases hx.symm.trans hload
      · cases hy.symm.trans hload
  constructor
  · intro p keys children hp hload j sep c cell hsep hc ⟨q, cells, nx, hq, hcells, hcell⟩
    rcases hpages p hp with rfl | rfl | rfl
    · cases hroot.symm.trans hload
      obtain ⟨hj, rfl⟩ := List.getElem?_eq_some_iff.1 hsep
      obtain rfl : j = 0 := Nat.lt_one_iff.1 hj
      obtain rfl := Option.some.inj hc
      obtain rfl := hleft q hq
      cases hx.symm.trans hcells
      exact hlt cell hcell
    · cases hx.symm.trans hload
    · cases hy.symm.trans hload
  · rintro c ⟨q, p, cells, nx, hfirst, hchain, hload, hc⟩
    obtain rfl : q = 2 := by
      cases hfirst with
      | leaf h => cases hroot.symm.trans h
      | child h h' =>
        cases hroot.symm.trans h
        cases h' with
        | leaf => rfl
        | child h => cases hx.symm.trans h
    have hp : p = 2 ∨ p = 3 := by
      clear hload hc
      induction hchain with
      | head => exact .inl rfl
      | next _ h hnext ih =>
        rcases ih with rfl | rfl
        · cases hx.symm.trans h
          exact .inr (Option.some.inj (hnext.symm.trans hxy))
        · cases hy.symm.trans h
          rw [hend] at hnext
          cases hnext
    rcases hp with rfl | rfl
    · exact ⟨2, cells, nx, .child .root hroot (by simp), hload, hc⟩
    · exact ⟨3, cells, nx, .child .root hroot (by simp), hload, hc⟩

/-- The cells of `misroutedPages` with key 3 in the place of key 10. -/
def leftCells : List Cell := [(1, List.replicate 700 0), (3, List.replicate 700 0)]

def rightCells : List Cell := [(7, List.replicate 1400 0)]

def routedPages : Nat → Except PyError Bytes
  | 1 => .ok (Node.internal [5] [2, 3] : PyNode).encode
  | 2 => .ok (Node.leaf leftCells (some 3) : PyNode).encode
  | 3 => .ok (Node.leaf rightCells none : PyNode).encode
  | _ => .error .indexError

/-- A root over two leaves passes both checks and routes every key. -/
theorem routed_routedPages : Routed (BTree.load routedPages) 1 ∧ Routed (Native.load routedPages) 1 := by
  have hpy : BTree.check (BTree.load routedPages) 5 1 = .ok ⟨3, true⟩ := by decide +kernel
  have hnat : Native.check (Native.load routedPages) 5 1 = .ok ⟨3, true⟩ := by decide +kernel
  have hlt : ∀ c ∈ leftCells, c.1 < 5 := by decide
  constructor
  · have hroot : BTree.load routedPages 1 = .ok (.internal [5] [2, 3]) := by decide +kernel
    have hleft : BTree.load routedPages 2 = .ok (.leaf leftCells (some 3)) := by decide +kernel
    have hright : BTree.load routedPages 3 = .ok (.leaf rightCells none) := by decide +kernel
    exact ((routed_iff_of_check routedPages 1 5 ⟨3, true⟩).1 hpy).2 (bounded_of_twoLeaves hroot hleft hright rfl rfl hlt)
  · have hroot : Native.load routedPages 1 = .ok (.internal [5] [2, 3]) := by decide +kernel
    have hleft : Native.load routedPages 2 = .ok (.leaf leftCells ⟨3⟩) := by decide +kernel
    have hright : Native.load routedPages 3 = .ok (.leaf rightCells ⟨noPage⟩) := by decide +kernel
    exact ((routed_iff_of_check routedPages 1 5 ⟨3, true⟩).2 hnat).2 (bounded_of_twoLeaves hroot hleft hright rfl rfl hlt)

end Witness

end LeafDb
