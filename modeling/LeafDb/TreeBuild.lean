import LeafDb.TreeFailures
import LeafDb.TreeVacuum

/-!
# What `bulk_load` and `vacuum` show

A leaf is closed after the cell that takes it over 4080 bytes, so it may be over a page, and then the write
raises. `bulkLoad_shows_iff` says that this, and page numbers that run out, are all that goes wrong.
-/

namespace LeafDb

variable {ν : Type} [TreeLink ν] {s s' : Store ν} {root : Nat} {pairs : List Cell} {t : Tree}

/-- `range_scan` and `search` show exactly these pairs. -/
structure Shows (s : Store ν) (root : Nat) (pairs : List Cell) : Prop where
  scan : ∃ out, rangeScan s.nodes s.numPages root none none = .ok out ∧ Ascending out ∧ out.Perm pairs
  found : ∀ k v, search s.nodes s.numPages root k = .ok (some v) ↔ (k, v) ∈ pairs
  absent : ∀ k, search s.nodes s.numPages root k = .ok none ↔ ∀ v, (k, v) ∉ pairs

/-- Every closed leaf fits its page, and the page numbers of the nodes fit the nodes above and the links, where the
last number ends the chain. -/
def BulkFits (n : Nat) (pairs : List Cell) : Prop :=
  LoadFits (pairs.length + 1) n pairs ∧
    (leafCount 9 (BTree.sortPairs pairs) ≤ 1 ∨ n + leafCount 9 (BTree.sortPairs pairs) ≠ 2 ^ 32)

/-! ### Scans -/

theorem exists_items {t : Tree} (ht : TreeAt s t) (hst : s.stale = []) :
    ∃ cells, (BTree.items s.numPages t.root).run s = .ok cells s ∧ cells.Sublist t.cells ∧
      rangeScan s.nodes s.numPages t.root none none = .ok cells ∧
        ((∀ l ∈ t.2.leaves.tail, l.cells ≠ []) → (cells = t.cells ↔ ∀ l ∈ t.2.leaves.tail, l.page ≠ noPage)) := by
  have hd := does_items ht hst
  unfold Does Exec.Post at hd
  rcases hx : (BTree.items s.numPages t.root).run s with ⟨cells, s'⟩ | ⟨e, s'⟩ <;> rw [hx] at hd
  · obtain ⟨⟨rfl, hsub⟩, hscan, hwhole⟩ := hd
    exact ⟨cells, rfl, hsub, hscan, hwhole⟩
  · exact hd.elim

theorem shows_iff (ht : TreeAt s t) (hperm : t.cells.Perm pairs) :
    Shows s t.root pairs ↔ rangeScan s.nodes s.numPages t.root none none = .ok t.cells := by
  have hasc : Ascending t.cells := ascending_cells ht.bounded
  constructor
  · rintro ⟨⟨out, hout, ha, hp⟩, -, -⟩
    have heq : out = t.cells := List.Perm.eq_of_pairwise (fun a b _ _ hab hba => absurd (hab.trans hba) (lt_irrefl _)) ha hasc
      (hp.trans hperm.symm)
    rw [hout, heq]
  · intro hscan
    refine ⟨⟨_, hscan, hasc, hperm⟩, fun k v => ?_, fun k => ?_⟩
    · rw [ht.search_eq_some, hperm.mem_iff]
    · simp only [ht.search_eq_none, hperm.mem_iff]

/-! ### `bulk_load` -/

/-- The tree shows the pairs if the chain goes on to its last leaf. -/
theorem Loaded.shows_iff {fuel : Nat} {leaves : List PLeaf} (hl : Loaded s pairs (fuel + 1) root s' leaves)
    (hc : ∀ c ∈ pairs, IsI64 c.1 ∧ c.2.length ≤ maxValueSize) :
    Shows s' root pairs ↔ leafCount 9 (BTree.sortPairs pairs) ≤ 1 ∨ s.numPages + leafCount 9 (BTree.sortPairs pairs) ≠ 2 ^ 32 := by
  obtain ⟨⟨t, rfl, ht, hext, -, hleaves⟩, hcells, hpages, hfull, hfits⟩ := hl
  obtain ⟨⟨-, hnums⟩, hlen⟩ := hfits hc
  have heq : t.cells = BTree.sortPairs pairs := by
    rw [← hcells, ← hleaves]
    simp [Tree.cells, PT.cellsL, PT.leavesL]
  obtain ⟨cells, -, -, hscan, hwhole⟩ := exists_items ht hext.stale
  have htail : (∀ l ∈ leaves.tail, l.page ≠ noPage) ↔ noPage ∉ List.range' (s.numPages + 1) (leaves.length - 1) := by
    rw [← List.tail_range', ← hpages, ← List.map_tail]
    simp only [List.mem_map, not_exists, not_and]
  rw [LeafDb.shows_iff ht (heq ▸ List.perm_insertionSort _ _), hscan, Except.ok.injEq, hwhole (hleaves ▸ hfull), hleaves, htail,
    List.mem_range'_1, hlen, noPage]
  rw [PagesFit] at hnums
  omega

theorem bulkLoad_shows_iff (hst : s.stale = []) (hpos : 0 < s.numPages) (hk : (pairs.map Prod.fst).Nodup)
    (hc : ∀ c ∈ pairs, IsI64 c.1 ∧ c.2.length ≤ maxValueSize) :
    (∃ root s', (BTree.bulkLoad (pairs.length + 1) pairs).run s = .ok root s' ∧ Shows s' root pairs) ↔
      BulkFits s.numPages pairs := by
  have hd := does_bulkLoad_leaves hst hpos hk (Nat.le_succ pairs.length)
  unfold Does Exec.Post at hd
  rcases hx : (BTree.bulkLoad (pairs.length + 1) pairs).run s with ⟨root, s'⟩ | ⟨e, s'⟩ <;> rw [hx] at hd
  · obtain ⟨leaves, hl⟩ := hd
    rw [BulkFits, and_iff_right (hl.fits hc).1, ← hl.shows_iff hc]
    constructor
    · rintro ⟨root', t, hr, hshows⟩
      cases hr
      exact hshows
    · exact fun hshows => ⟨root, s', rfl, hshows⟩
  · refine iff_of_false ?_ fun h => hd.2 hc h.1
    rintro ⟨root', t, hr, -⟩
    cases hr

/-! ### `vacuum` -/

/-- `vacuum` is `bulk_load` of what the scan of the old tree yields. -/
theorem run_vacuum (ht : TreeAt s t) (hst : s.stale = []) :
    ∃ cells, cells.Sublist t.cells ∧ rangeScan s.nodes s.numPages t.root none none = .ok cells ∧
      ∀ r s', (BTree.vacuum s.numPages t.root).run s = .ok r s' ↔
        (BTree.bulkLoad (cells.length + 1) cells).run s = .ok r.1 s' ∧ r.2 = cells.length := by
  obtain ⟨cells, hrun, hsub, hscan, -⟩ := exists_items ht hst
  refine ⟨cells, hsub, hscan, fun r s' => ?_⟩
  rw [BTree.vacuum, TreeM.run_bind, Exec.bind_eq_ok]
  constructor
  · rintro ⟨data, s₁, hr, h⟩
    cases hrun.symm.trans hr
    rw [TreeM.run_bind, Exec.bind_eq_ok] at h
    obtain ⟨root, s₂, hload, h⟩ := h
    cases h
    exact ⟨hload, rfl⟩
  · rintro ⟨hload, hr⟩
    refine ⟨cells, s, hrun, ?_⟩
    rw [TreeM.run_bind, Exec.bind_eq_ok]
    refine ⟨r.1, s', hload, ?_⟩
    rw [← hr]
    rfl

theorem TreeAt.nodup_keys (ht : TreeAt s t) {cells : List Cell} (hsub : cells.Sublist t.cells) : (cells.map Prod.fst).Nodup :=
  List.pairwise_map.2 ((List.Pairwise.sublist hsub (ascending_cells ht.bounded)).imp fun h => h.ne)

/-- `vacuum` keeps every row if and only if the old tree shows every row and its rows can be loaded. -/
theorem vacuum_shows_iff (ht : TreeAt s t) (hst : s.stale = []) (hc : ∀ c ∈ t.cells, IsI64 c.1 ∧ c.2.length ≤ maxValueSize) :
    (∃ r s', (BTree.vacuum s.numPages t.root).run s = .ok r s' ∧ Shows s' r.1 t.cells) ↔
      rangeScan s.nodes s.numPages t.root none none = .ok t.cells ∧ BulkFits s.numPages t.cells := by
  have hpos : 0 < s.numPages := (Nat.zero_le _).trans_lt (ht.good.range _ t.root_mem_pages).2
  obtain ⟨cells, hsub, hscan, hrun⟩ := run_vacuum ht hst
  have hk := ht.nodup_keys hsub
  rw [hscan, Except.ok.injEq]
  by_cases heq : cells = t.cells
  · rw [and_iff_right heq, ← bulkLoad_shows_iff hst hpos (heq ▸ hk) hc, ← heq]
    constructor
    · rintro ⟨r, s', hr, hshows⟩
      exact ⟨r.1, s', ((hrun r s').1 hr).1, hshows⟩
    · rintro ⟨root, s', hr, hshows⟩
      exact ⟨(root, cells.length), s', (hrun _ s').2 ⟨hr, rfl⟩, hshows⟩
  · refine iff_of_false ?_ fun h => heq h.1
    rintro ⟨r, s', hr, hshows⟩
    -- a row that the scan does not yield is not in the new tree
    have hd := does_bulkLoad_leaves hst hpos hk (Nat.le_succ cells.length)
    unfold Does Exec.Post at hd
    rw [((hrun r s').1 hr).1] at hd
    obtain ⟨leaves, ⟨t', hroot, ht', -, -, hleaves⟩, hflat, -⟩ := hd
    have hcells : t'.cells = BTree.sortPairs cells := by
      rw [← hflat, ← hleaves]
      simp [Tree.cells, PT.cellsL, PT.leavesL]
    have hmem : ∀ c, c ∈ t.cells → c ∈ cells := by
      intro c hct
      have hfound := (hshows.found c.1 c.2).2 hct
      rw [← hroot, ht'.search_eq_some, hcells] at hfound
      exact (List.perm_insertionSort _ _).mem_iff.1 hfound
    refine heq (hsub.eq_of_length_le ?_)
    exact (List.Nodup.subperm (List.Nodup.of_map _ (ht.nodup_keys (List.Sublist.refl _))) hmem).length_le

/-- `bulk_load` and `vacuum` show their rows, with these exceptions. -/
theorem bulkLoad_vacuum_shows_iff :
    (∀ (s : Store ν) (pairs : List Cell), s.stale = [] → 0 < s.numPages → (pairs.map Prod.fst).Nodup →
      (∀ c ∈ pairs, IsI64 c.1 ∧ c.2.length ≤ maxValueSize) →
      ((∃ root s', (BTree.bulkLoad (pairs.length + 1) pairs).run s = .ok root s' ∧ Shows s' root pairs) ↔
        BulkFits s.numPages pairs)) ∧
    ∀ (s : Store ν) (t : Tree), TreeAt s t → s.stale = [] → (∀ c ∈ t.cells, IsI64 c.1 ∧ c.2.length ≤ maxValueSize) →
      ((∃ r s', (BTree.vacuum s.numPages t.root).run s = .ok r s' ∧ Shows s' r.1 t.cells) ↔
        rangeScan s.nodes s.numPages t.root none none = .ok t.cells ∧ BulkFits s.numPages t.cells) :=
  ⟨fun _ _ hst hpos hk hc => bulkLoad_shows_iff hst hpos hk hc, fun _ _ ht hst hc => vacuum_shows_iff ht hst hc⟩

section Witness

/-- Two such values close a leaf, and fit it. -/
def fullValue : Bytes := List.replicate 2030 0

variable {v : Bytes}

/-- Five pairs, out of order. -/
def fivePairs (v : Bytes) : List Cell := [(4, v), (2, v), (5, v), (1, v), (3, v)]

theorem sortPairs_fivePairs : BTree.sortPairs (fivePairs v) = [(1, v), (2, v), (3, v), (4, v), (5, v)] := by
  simp [fivePairs, BTree.sortPairs, BTree.pairLe]

/-- The pairs fill two leaves and begin a third. -/
theorem bulkFits_fivePairs (hv : v.length = 2030) : BulkFits emptyStore.numPages (fivePairs v) := by
  have hcount : leafCount 9 (BTree.sortPairs (fivePairs v)) = 3 := by
    simp [sortPairs_fivePairs, leafCount, pageSize, hv]
  refine ⟨⟨?_, ?_⟩, .inr ?_⟩
  · simp [sortPairs_fivePairs, LeavesFit, pageSize, hv]
  · rw [hcount]
    simp [fivePairs, PagesFit, emptyStore]
  · rw [hcount]
    simp [emptyStore]

/-- Five pairs make a root over three leaves; the vacuum of two leaves with a short and a long value packs both in
one leaf. -/
theorem bulkLoad_shows_fivePairs :
    (∃ root s', (BTree.bulkLoad 6 (fivePairs fullValue)).run emptyStore = .ok root s' ∧ Shows s' root (fivePairs fullValue)) ∧
      ∃ s, TreeRuns (emptyStore, 1) [.insert 1 longValue, .insert 2 longValue, .upsert 1 [7]] (s, 3) ∧
        ∃ r s', (BTree.vacuum s.numPages 3).run s = .ok r s' ∧ Shows s' r.1 [(1, [7]), (2, longValue)] := by
  have hlen := length_longValue
  have hfull : fullValue.length = 2030 := List.length_replicate
  generalize longValue = v at hlen ⊢
  generalize fullValue = w at hfull ⊢
  have h64 : ∀ k : Int, 0 ≤ k ∧ k < 100 → IsI64 k := fun k => isI64_of_small
  have hmax : v.length ≤ maxValueSize := hlen.trans_le (by decide)
  have hmaxw : w.length ≤ maxValueSize := hfull.trans_le (by decide)
  constructor
  · refine (bulkLoad_vacuum_shows_iff.1 emptyStore (fivePairs w) rfl (by decide) (by simp [fivePairs]) ?_).2 (bulkFits_fivePairs hfull)
    simp [fivePairs, hmaxw, h64]
  · obtain ⟨s, hrun, hs, -⟩ := run_twoLeaves hlen
    have hroom := (PT.replace_legal_iff hs.legal (h64 1 (by omega)) (by decide)).2 (roomFor_first (w := [7]) (by decide) _)
    obtain ⟨s', hstep, hs'⟩ := hs.step_upsert (by decide) ⟨v, (mem_cells_twoLeaves 2).2 (.inl rfl)⟩ hroom
    rw [twoLeaves, replace_first] at hs'
    refine ⟨s', Run.append hrun (Run.single ⟨h64 1 (by omega), by decide⟩ hstep), ?_⟩
    have hcells : Tree.cells ⟨1, PT.branch 3 [2] [PT.leaf 1 [(1, [7])] 2, PT.leaf 2 [(2, v)] noPage]⟩ = [(1, [7]), (2, v)] := rfl
    obtain ⟨cells, -, -, hscan, hwhole⟩ := exists_items hs'.tree hs'.stale
    obtain rfl := (hwhole (by simp)).2 (by simp [noPage])
    have hsort : BTree.sortPairs [((1 : Int), [7]), (2, v)] = [(1, [7]), (2, v)] := by simp [BTree.sortPairs, BTree.pairLe]
    have hcount : leafCount 9 [((1 : Int), [7]), (2, v)] = 1 := by simp [leafCount, pageSize, hlen]
    have hvac := bulkLoad_vacuum_shows_iff.2 s' _ hs'.tree hs'.stale
    rw [hcells] at hvac hscan
    refine (hvac ?_).2 ⟨hscan, ⟨?_, ?_⟩, .inl ?_⟩
    · have h7 : ([7] : Bytes).length ≤ maxValueSize := by decide
      simpa [h64] using ⟨h7, hmax⟩
    · rw [hsort]
      simp [LeavesFit, pageSize, hlen]
    · rw [hsort, hcount]
      exact .inl le_rfl
    · rw [hsort, hcount]

end Witness

/-- A leaf has room for one such value and is still open then; it has no room for two. -/
def halfValue : Bytes := List.replicate 2040 0

/-- The leaf of both pairs is over a page. -/
theorem not_bulkLoad_shows : halfValue.length ≤ maxValueSize ∧
    ¬∃ root s', (BTree.bulkLoad 3 [(1, halfValue), (2, halfValue)]).run emptyStore = .ok root s' := by
  have hlen : halfValue.length = 2040 := List.length_replicate
  generalize halfValue = v at hlen ⊢
  have hv : v.length ≤ maxValueSize := by
    rw [hlen, maxValueSize, pageSize]
    omega
  refine ⟨hv, ?_⟩
  rintro ⟨root, s', hr⟩
  have hsort : BTree.sortPairs [(1, v), (2, v)] = [(1, v), (2, v)] :=
    List.Pairwise.insertionSort_eq (by simp [BTree.pairLe])
  have hd := does_bulkLoad_leaves (s := emptyStore) rfl (by decide) (by simp) (Nat.le_succ [((1 : Int), v), (2, v)].length)
  unfold Does Exec.Post at hd
  rw [show (BTree.bulkLoad ([((1 : Int), v), (2, v)].length + 1) [(1, v), (2, v)]).run emptyStore = .ok root s' from hr] at hd
  obtain ⟨leaves, hl⟩ := hd
  obtain ⟨⟨hfit, -⟩, -⟩ := hl.fits (by simp [IsI64, hv])
  rw [hsort] at hfit
  simp [LeavesFit, pageSize, hlen] at hfit

end LeafDb
