import LeafDb.TreeRun
import LeafDb.TreeVacuum

/-!
# Searching and scanning

`search` and `range_scan` as page programs. On a stored tree they return, leave the pages as they are, and yield what
the cells say: the value of the key, and the cells between the bounds in their order (`does_lookup`, `does_range`). The
scan goes to the end of the chain only when no leaf behind the first one is on the page whose number ends the chain.
-/

namespace LeafDb

namespace BTree

variable {ν : Type}

/-- `search`. -/
def lookup : Nat → Nat → Int → TreeM ν (Option Bytes)
  | 0, _, _ => .fail .diverges
  | fuel + 1, n, key => do
    match ← loadNode n with
    | .leaf cells _ => return (cells[bisectLeft (cells.map Prod.fst) key]?).bind fun c => if c.1 = key then some c.2 else none
    | .internal keys children => lookup fuel (← at? children (bisectRight keys key)) key

/-- The first loop of `range_scan`. -/
def startLeaf (lo : Option Int) : Nat → Nat → TreeM ν Nat
  | 0, _ => .fail .diverges
  | fuel + 1, n => do
    match ← loadNode n with
    | .leaf _ _ => return n
    | .internal keys children => startLeaf lo fuel (← at? children (lo.elim 0 (bisectRight keys)))

variable [TreeLink ν]

/-- The second loop of `range_scan`. -/
def cellsFrom (lo hi : Option Int) : Nat → Nat → TreeM ν (List Cell)
  | 0, _ => .fail .diverges
  | fuel + 1, n => do
    match ← loadNode n with
    | .internal _ _ => .fail .attributeError
    | .leaf cells next =>
      let (out, more) := scanCells lo hi cells
      match more, Link.follow next with
      | true, some n' => return out ++ (← cellsFrom lo hi fuel n')
      | _, _ => return out

/-- `range_scan`, as the list of what it yields. -/
def range (fuel root : Nat) (lo hi : Option Int) : TreeM ν (List Cell) := do cellsFrom lo hi fuel (← startLeaf lo fuel root)

/-- `items` is the scan without bounds. -/
theorem range_none (fuel root : Nat) : range fuel root none none = (items fuel root : TreeM ν _) := by
  have hstart (fuel n : Nat) : startLeaf none fuel n = (firstLeaf fuel n : TreeM ν _) := by
    induction fuel generalizing n with
    | zero => rfl
    | succ fuel ih =>
      rw [startLeaf, firstLeaf]
      congr 1
      funext nd
      cases nd with
      | leaf cells next => rfl
      | internal keys children =>
        change (at? children 0 >>= fun c => startLeaf none fuel c) = (at? children 0 >>= fun c => firstLeaf fuel c)
        simp only [ih]
  have hcells (fuel n : Nat) : cellsFrom none none fuel n = (chainCells fuel n : TreeM ν _) := by
    induction fuel generalizing n with
    | zero => rfl
    | succ fuel ih =>
      rw [cellsFrom, chainCells]
      congr 1
      funext nd
      cases nd with
      | internal keys children => rfl
      | leaf cells next =>
        simp only [scanCells_none]
        cases Link.follow next with
        | none => rfl
        | some n' => simp only [ih]
  rw [range, items, hstart]
  congr 1
  funext n
  exact hcells fuel n

end BTree

/-! ### The cells between two bounds -/

/-- `lo ≤ k ≤ hi`, where a missing bound is no bound. -/
def Within (lo hi : Option Int) (k : Int) : Prop := (∀ a ∈ lo, a ≤ k) ∧ ∀ b ∈ hi, k ≤ b

instance (lo hi : Option Int) (k : Int) : Decidable (Within lo hi k) := inferInstanceAs (Decidable (_ ∧ _))

/-- The cells of a scan. -/
def cellsWithin (lo hi : Option Int) (cells : List Cell) : List Cell := cells.filter fun c => decide (Within lo hi c.1)

section Within

variable {lo hi : Option Int} {cells cells' : List Cell}

theorem mem_cellsWithin {c : Cell} : c ∈ cellsWithin lo hi cells ↔ c ∈ cells ∧ Within lo hi c.1 := by
  rw [cellsWithin, List.mem_filter, decide_eq_true_iff]

theorem ascending_cellsWithin (ha : Ascending cells) : Ascending (cellsWithin lo hi cells) := ha.sublist List.filter_sublist

theorem cellsWithin_append (lo hi : Option Int) (cells cells' : List Cell) :
    cellsWithin lo hi (cells ++ cells') = cellsWithin lo hi cells ++ cellsWithin lo hi cells' := List.filter_append ..

/-- No cell is between the bounds. -/
theorem cellsWithin_eq_nil (h : ∀ c ∈ cells, ¬Within lo hi c.1) : cellsWithin lo hi cells = [] :=
  List.filter_eq_nil_iff.2 fun c hc => by simpa using h c hc

/-- A scan yields the cells of a leaf between the bounds, and stops only behind the upper one. -/
theorem scanCells_ascending (lo hi : Option Int) (ha : Ascending cells) : (scanCells lo hi cells).1 = cellsWithin lo hi cells ∧
    ((scanCells lo hi cells).2 = false → ∃ c ∈ cells, ∃ b ∈ hi, b < c.1) := by
  induction cells with
  | nil => exact ⟨rfl, fun h => by cases h⟩
  | cons c cells ih =>
    obtain ⟨k, v⟩ := c
    obtain ⟨hk, ha⟩ := List.pairwise_cons.1 ha
    obtain ⟨hout, hmore⟩ := ih ha
    have hcons : cellsWithin lo hi ((k, v) :: cells) =
        if Within lo hi k then (k, v) :: cellsWithin lo hi cells else cellsWithin lo hi cells := by
      rw [cellsWithin, List.filter_cons]
      simp only [decide_eq_true_eq]
      rfl
    rw [scanCells, hcons]
    by_cases hlo : lo.any (k < ·)
    · obtain ⟨a, rfl, hka⟩ : ∃ a, lo = some a ∧ k < a := by simpa [Option.any_eq_true] using hlo
      rw [if_pos hlo, if_neg fun hw : Within (some a) hi k => absurd (hw.1 a rfl) (not_le.2 hka)]
      refine ⟨hout, fun h => ?_⟩
      obtain ⟨c, hc, hb⟩ := hmore h
      exact ⟨c, List.mem_cons_of_mem _ hc, hb⟩
    rw [if_neg hlo]
    by_cases hhi : hi.any (k > ·)
    · obtain ⟨b, rfl, hbk⟩ : ∃ b, hi = some b ∧ b < k := by simpa [Option.any_eq_true] using hhi
      have hnone : cellsWithin lo (some b) cells = [] :=
        cellsWithin_eq_nil fun c hc hw => absurd (hw.2 b rfl) (not_le.2 (hbk.trans (hk c hc)))
      rw [if_pos hhi, if_neg fun hw : Within lo (some b) k => absurd (hw.2 b rfl) (not_le.2 hbk), hnone]
      exact ⟨rfl, fun _ => ⟨(k, v), List.mem_cons_self, b, rfl, hbk⟩⟩
    · have hw : Within lo hi k := by
        refine ⟨fun a ha => ?_, fun b hb => ?_⟩
        · subst ha
          simpa using hlo
        · subst hb
          simpa using hhi
      rw [if_neg hhi, if_pos hw, ← hout]
      refine ⟨rfl, fun h => ?_⟩
      obtain ⟨c, hc, hb⟩ := hmore h
      exact ⟨c, List.mem_cons_of_mem _ hc, hb⟩

end Within

variable {ν : Type} [TreeLink ν] {s : Store ν} {h : Nat} {lo hi : Option Int}

/-! ### Searching -/

theorem does_lookup_good {key : Int} : {h : Nat} → {lo hi : Option Int} → {t : PT h} → Good False s lo hi [] [t] → s.stale = [] →
    {fuel : Nat} → h < fuel → Does (BTree.lookup fuel t.page key) s (fun r s' => s' = s ∧ ∀ v, r = some v ↔ (key, v) ∈ PT.cellsL [t])
      fun _ _ => False
  | 0, lo, hi, t, g, hst, fuel, hf => by
    obtain ⟨p, cells, l, rfl⟩ := PT.exists_leaf t
    obtain ⟨fuel, rfl⟩ := Nat.exists_eq_add_of_lt hf
    obtain ⟨ha, -, -, hs, hp⟩ := g.of_leaf
    rw [Nat.zero_add, BTree.lookup, PT.page_leaf, does_bind, does_load hst hp hs]
    refine ⟨rfl, fun v => ?_⟩
    have hfound : ((cells[bisectLeft (cells.map Prod.fst) key]?).bind fun c => if c.1 = key then some c.2 else none) =
        leafLookup cells key := by
      rw [leafLookup]
      cases cells[bisectLeft (cells.map Prod.fst) key]? <;> rfl
    rw [hfound, leafLookup_eq_some_iff ha, PT.cellsL_leaf]
  | h + 1, lo, hi, t, g, hst, fuel, hf => by
    obtain ⟨p, keys, kids, rfl⟩ := PT.exists_branch t
    obtain ⟨fuel, rfl⟩ : ∃ f, fuel = f + 1 := ⟨fuel - 1, by omega⟩
    obtain ⟨gk, hs, hp, hrange⟩ := g.of_branch
    obtain ⟨ka, kb, ca, c, cb, hkeys, hkids, hla, hlb, hbis, hka, hkb, hca, hcb⟩ := gk.child key
    have hc : (kids.map PT.page)[ka.length]? = some c.page := by simp [hkids, hla]
    rw [PT.page_branch, BTree.lookup, does_bind, does_load hst hrange hs]
    simp only
    rw [hbis, does_bind, does_at hc]
    rw [hkeys, hkids] at gk
    refine (does_lookup_good (gk.segment hla hlb).1 hst (by omega)).mono ?_ fun _ _ he => he
    rintro r s' ⟨rfl, hv⟩
    refine ⟨rfl, fun v => ?_⟩
    rw [hv, PT.cellsL_branch, hkids, key_mem_child hca hcb]

/-- `search` finds the value of a key, if the tree has the key. -/
theorem does_lookup {t : Tree} (ht : TreeAt s t) (hst : s.stale = []) (key : Int) :
    Does (BTree.lookup s.numPages t.root key) s (fun r s' => s' = s ∧ ∀ v, r = some v ↔ (key, v) ∈ t.cells) fun _ _ => False :=
  does_lookup_good ht.good hst ht.height_lt

/-! ### Scanning -/

/-- The child where a scan starts: what is on its left is below the bound. -/
theorem Good.start {lo' hi' : Option Int} {keys : List Int} {kids : List (PT h)} (g : Good False s lo' hi' keys kids)
    (lo : Option Int) :
    ∃ ka kb ca c cb, keys = ka ++ [] ++ kb ∧ kids = ca ++ [c] ++ cb ∧ ka.length = ca.length ∧ kb.length = cb.length ∧
      lo.elim 0 (bisectRight keys) = ka.length ∧ ∀ d ∈ PT.cellsL ca, ∃ b ∈ lo, d.1 < b := by
  cases lo with
  | none =>
    obtain ⟨c, cs, -, rfl, -⟩ := g.kids.head
    exact ⟨[], keys, [], c, cs, rfl, rfl, rfl, by simpa using g.kids.length_eq.symm, rfl, by simp [PT.cellsL]⟩
  | some b =>
    obtain ⟨ka, kb, ca, c, cb, hkeys, hkids, hla, hlb, hbis, -, -, hca, -⟩ := g.child b
    exact ⟨ka, kb, ca, c, cb, hkeys, hkids, hla, hlb, hbis, fun d hd => ⟨b, rfl, hca d hd⟩⟩

/-- The scan starts at a leaf, and the cells of the leaves before it are below the bound. -/
theorem does_startLeaf : {h : Nat} → {lo' hi' : Option Int} → {t : PT h} → Good False s lo' hi' [] [t] → s.stale = [] →
    {fuel : Nat} → h < fuel → Does (BTree.startLeaf lo fuel t.page) s
      (fun n s' => s' = s ∧ ∃ pre a post, t.leaves = pre ++ a :: post ∧ a.page = n ∧
        ∀ c ∈ pre.flatMap PLeaf.cells, ∃ b ∈ lo, c.1 < b) fun _ _ => False
  | 0, lo', hi', t, g, hst, fuel, hf => by
    obtain ⟨p, cells, l, rfl⟩ := PT.exists_leaf t
    obtain ⟨fuel, rfl⟩ := Nat.exists_eq_add_of_lt hf
    obtain ⟨-, -, -, hs, hp⟩ := g.of_leaf
    rw [Nat.zero_add, BTree.startLeaf, PT.page_leaf, does_bind, does_load hst hp hs]
    exact ⟨rfl, [], ⟨p, cells, l⟩, [], rfl, rfl, by simp⟩
  | h + 1, lo', hi', t, g, hst, fuel, hf => by
    obtain ⟨p, keys, kids, rfl⟩ := PT.exists_branch t
    obtain ⟨fuel, rfl⟩ : ∃ f, fuel = f + 1 := ⟨fuel - 1, by omega⟩
    obtain ⟨gk, hs, hp, hrange⟩ := g.of_branch
    obtain ⟨ka, kb, ca, c, cb, hkeys, hkids, hla, hlb, hbis, hca⟩ := gk.start lo
    have hc : (kids.map PT.page)[ka.length]? = some c.page := by simp [hkids, hla]
    rw [PT.page_branch, BTree.startLeaf, does_bind, does_load hst hrange hs]
    simp only
    rw [hbis, does_bind, does_at hc]
    rw [hkeys, hkids] at gk
    refine (does_startLeaf (gk.segment hla hlb).1 hst (by omega)).mono ?_ fun _ _ he => he
    rintro n s' ⟨rfl, pre, a, post, hleaves, ha, hpre⟩
    refine ⟨rfl, PT.leavesL ca ++ pre, a, post ++ PT.leavesL cb, ?_, ha, fun d hd => ?_⟩
    · rw [PT.leaves_branch, hkids]
      simp [PT.leavesL, hleaves]
    · rw [List.flatMap_append, List.mem_append] at hd
      exact hd.elim (hca d) (hpre d)

/-- The scan along the chain yields the cells between the bounds. -/
theorem does_cellsFrom {fuel : Nat} {a : PLeaf} {as : List PLeaf} (hst : s.stale = [])
    (hs : ∀ b ∈ a :: as, s.nodes b.page = .ok (.leaf b.cells (TreeLink.ofCode b.link)))
    (hr : ∀ b ∈ a :: as, 0 < b.page ∧ b.page < s.numPages) (hc : (a :: as).IsChain Next)
    (hlast : (a :: as).getLast?.map PLeaf.link = some noPage) (ha : Ascending ((a :: as).flatMap PLeaf.cells))
    (hno : ∀ b ∈ as, b.page ≠ noPage) (hf : as.length < fuel) :
    Does (BTree.cellsFrom lo hi fuel a.page) s
      (fun out s' => s' = s ∧ out = cellsWithin lo hi ((a :: as).flatMap PLeaf.cells)) fun _ _ => False := by
  induction fuel generalizing a as with
  | zero => exact absurd hf (Nat.not_lt_zero _)
  | succ fuel ih =>
    rw [List.flatMap_cons] at ha
    obtain ⟨ha₁, ha₂, hbelow⟩ := List.pairwise_append.1 ha
    rw [BTree.cellsFrom, does_bind, does_load hst (hr a (by simp)) (hs a (by simp)), List.flatMap_cons, cellsWithin_append]
    simp only
    obtain ⟨hout, hstop⟩ := scanCells_ascending lo hi ha₁
    cases hmore : (scanCells lo hi a.cells).2 with
    | false =>
      -- the cells of the leaves that follow are above the bound, too
      obtain ⟨c, hcm, b, hb, hlt⟩ := hstop hmore
      have hrest : cellsWithin lo hi (as.flatMap PLeaf.cells) = [] :=
        cellsWithin_eq_nil fun d hd hw => absurd (hw.2 b hb) (not_le.2 (hlt.trans (hbelow c hcm d hd)))
      rw [hrest, List.append_nil]
      exact ⟨rfl, hout⟩
    | true =>
      rcases as with _ | ⟨b, as⟩
      · obtain hl : a.link = noPage := by simpa using hlast
        rw [hl, TreeLink.follow_noPage]
        exact ⟨rfl, by rw [hout]; simp [cellsWithin]⟩
      · have hl : a.link = b.page := (List.isChain_cons_cons.1 hc).1
        rw [hl, TreeLink.follow_ofCode _ (hr b (by simp)).1.ne' (hno b (by simp)), does_bind]
        refine (ih (fun c hc => hs c (List.mem_cons_of_mem _ hc)) (fun c hc => hr c (List.mem_cons_of_mem _ hc))
          (List.isChain_cons_cons.1 hc).2 (by simpa using hlast) ha₂ (fun c hc => hno c (List.mem_cons_of_mem _ hc))
          (Nat.lt_of_succ_lt_succ hf)).mono ?_ fun _ _ he => he
        rintro out s' ⟨rfl, rfl⟩
        exact ⟨rfl, by rw [hout]⟩

/-- `range_scan` yields the cells between the bounds, in their order. -/
theorem does_range {t : Tree} (ht : TreeAt s t) (hst : s.stale = []) (hno : ∀ l ∈ t.2.leaves.tail, l.page ≠ noPage)
    (lo hi : Option Int) :
    Does (BTree.range s.numPages t.root lo hi) s (fun out s' => s' = s ∧ out = cellsWithin lo hi t.cells) fun _ _ => False := by
  have hlen := ht.length_pages_le
  have hasc : Ascending t.cells := ascending_cells ht.bounded
  obtain ⟨-, hstored, -, hrange, hchain⟩ := ht.good
  have hlast := ht.lastLink
  rw [BTree.range, does_bind]
  refine (does_startLeaf ht.good hst ht.height_lt).mono ?_ fun _ _ he => he
  rintro _ s' ⟨rfl, pre, a, post, hleaves, rfl, hpre⟩
  have hcells : t.cells = pre.flatMap PLeaf.cells ++ (a :: post).flatMap PLeaf.cells := by
    rw [Tree.cells, PT.cellsL, PT.leavesL, List.flatMap_singleton, hleaves, List.flatMap_append]
  have hsub : ∀ b ∈ a :: post, b ∈ t.2.leaves := fun b hb => hleaves ▸ List.mem_append_right _ hb
  have hnode : ∀ b ∈ a :: post, (b.page, Node.leaf b.cells (TreeLink.ofCode b.link)) ∈ t.2.nodes (ν := ν) :=
    fun b hb => leaf_mem_nodes (hsub b hb)
  simp only [PT.nodesL, PT.pagesL, PT.leavesL, List.flatMap_cons, List.flatMap_nil, List.append_nil] at hstored hrange hchain
  rw [hleaves] at hchain
  have hlength : post.length < s'.numPages := by
    have hle := length_leaves_le t.2
    rw [hleaves, List.length_append, List.length_cons] at hle
    rw [Tree.pages_eq] at hlen
    omega
  refine (does_cellsFrom hst (fun b hb => hstored _ (hnode b hb)) (fun b hb => hrange _ ?_) (List.isChain_append.1 hchain).2.1 ?_ ?_
    (fun b hb => hno b ?_) hlength).mono ?_ fun _ _ he => he
  · rw [← PT.map_fst_nodes (ν := ν) t.2]
    exact List.mem_map_of_mem (hnode b hb)
  · simpa [Tree.lastLink, PT.leavesL, hleaves] using hlast
  · rw [hcells] at hasc
    exact (List.pairwise_append.1 hasc).2.1
  · rw [hleaves]
    rcases pre with _ | ⟨p, pre⟩
    · exact hb
    · exact List.mem_append_right _ (List.mem_cons_of_mem _ hb)
  · rintro out s'' ⟨rfl, rfl⟩
    refine ⟨rfl, ?_⟩
    have hnone : cellsWithin lo hi (pre.flatMap PLeaf.cells) = [] := by
      refine cellsWithin_eq_nil fun c hc hw => ?_
      obtain ⟨b, hb, hlt⟩ := hpre c hc
      exact absurd (hw.1 b hb) (not_le.2 hlt)
    rw [hcells, cellsWithin_append, hnone, List.nil_append]

end LeafDb
