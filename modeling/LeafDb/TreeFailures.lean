import LeafDb.TreeTotal

/-!
# The failures of the tree operations

Deletion, insertion and overwriting can each raise on legal input: deletion reads the second cell of a leaf
that has one, insertion writes a half that does not fit its page, overwriting a leaf that does not.
-/

namespace LeafDb

variable {ν : Type} [TreeLink ν] {h : Nat} {s s₀ : Store ν} {root root₀ : Nat} {ops : List TreeOp}

/-! ### Overwriting -/

namespace PT

variable {key : Int} {value : Bytes}

/-- The leaf where the key belongs fits its page with the new value. -/
def RoomFor (key : Int) (value : Bytes) : {h : Nat} → PT h → Prop
  | 0, t => 9 + cellsSize ((PLeaf.cells t).set (bisectLeft ((PLeaf.cells t).map Prod.fst) key) (key, value)) ≤ pageSize
  | _ + 1, t => ∃ c, (PNode.kids t)[bisectRight (PNode.keys t) key]? = some c ∧ RoomFor key value c

theorem page_replace : {h : Nat} → (t : PT h) → (t.replace key value).page = t.page
  | 0, _ => rfl
  | _ + 1, _ => rfl

theorem replace_legal_iff : {h : Nat} → {t : PT h} → t.Legal → IsI64 key → value.length ≤ maxValueSize →
    ((t.replace key value).Legal ↔ t.RoomFor key value)
  | 0, t, hl, hk, hv => by
    obtain ⟨p, cells, l, rfl⟩ := exists_leaf t
    obtain ⟨⟨hlink, hc⟩, -⟩ := fits_leaf.1 hl
    refine ⟨fun hl' => hl'.2, fun hs => ⟨⟨hlink, fun c hcm => ?_⟩, hs⟩⟩
    rcases List.mem_or_eq_of_mem_set hcm with hcm | rfl
    · exact hc c hcm
    · exact ⟨hk, hv⟩
  | h + 1, t, hl, hk, hv => by
    obtain ⟨p, keys, kids, rfl⟩ := exists_branch t
    obtain ⟨hkids, hlen⟩ := hl.legalKids
    obtain ⟨c, hc, hcm⟩ := hkids.exists_child key
    have ih : (c.replace key value).Legal ↔ c.RoomFor key value := replace_legal_iff (hkids.legal c hcm) hk hv
    have hroom : (branch p keys kids).RoomFor key value ↔ c.RoomFor key value := by
      refine ⟨?_, fun hr => ⟨c, hc, hr⟩⟩
      rintro ⟨c', hc', hr⟩
      obtain rfl := Option.some.inj (hc.symm.trans hc')
      exact hr
    have hrep : (branch p keys kids).replace key value = branch p keys (kids.set (bisectRight keys key) (c.replace key value)) := by
      have hlt := (List.getElem?_eq_some_iff.1 hc).1
      have hcut : kids = kids.take (bisectRight keys key) ++ [c] ++ kids.drop (bisectRight keys key + 1) := by
        rw [List.append_assoc, List.singleton_append, ← (List.getElem?_eq_some_iff.1 hc).2, List.getElem_cons_drop,
          List.take_append_drop]
      have hlen : bisectRight keys key = (kids.take (bisectRight keys key)).length := by
        rw [List.length_take, min_eq_left hlt.le]
      rw [List.set_eq_take_append_cons_drop, if_pos hlt]
      conv_lhs => rw [hcut]
      rw [replace_branch hlen, List.append_assoc, List.singleton_append]
    rw [hroom, ← ih, hrep]
    refine ⟨fun hl' => hl'.legalKids.1.legal _ (List.mem_set (List.getElem?_eq_some_iff.1 hc).1 _),
      fun hl' => (hkids.set hc hl' (page_replace c)).branch hlen⟩

end PT

/-! ### The tree at a root -/

section Unique

/-- The nodes of the tree are on its pages. -/
def PT.On (s : Store ν) (t : PT h) : Prop := ∀ n ∈ t.nodes (ν := ν), s.nodes n.1 = .ok n.2

variable {h' : Nat} {t : PT h}

theorem PT.On.load (ht : t.On s) : s.nodes t.page = .ok t.node := ht _ t.node_mem

theorem PT.On.kid {p : Nat} {keys : List Int} {kids : List (PT h)} (ht : (branch p keys kids).On s) {c : PT h} (hc : c ∈ kids) :
    c.On s := fun n hn => ht n (List.mem_cons_of_mem _ (List.mem_flatMap.2 ⟨c, hc, hn⟩))

/-- The height follows the first children down to a leaf. -/
theorem PT.On.height_eq : {h h' : Nat} → {t : PT h} → {t' : PT h'} → {lo hi : Option Int} → t.On s →
    Bounded False lo hi t → t'.On s → t.page = t'.page → h = h'
  | 0, 0, _, _, _, _, _, _, _, _ => rfl
  | 0, h' + 1, t, t', _, _, ht, _, ht', hp => by
    have he := ht.load
    rw [hp, ht'.load] at he
    cases he
  | h + 1, 0, t, t', _, _, ht, _, ht', hp => by
    have he := ht.load
    rw [hp, ht'.load] at he
    cases he
  | h + 1, h' + 1, t, t', lo, hi, ht, hb, ht', hp => by
    obtain ⟨p, keys, kids, rfl⟩ := exists_branch t
    obtain ⟨p', keys', kids', rfl⟩ := exists_branch t'
    obtain rfl : p = p' := hp
    have hkids : Kids False (Bounded False) lo hi keys kids := hb
    obtain ⟨c, cs, hi', rfl, hc⟩ := hkids.head
    obtain ⟨rfl, hpages⟩ := Node.internal.inj (Except.ok.inj (ht.load.symm.trans ht'.load))
    obtain ⟨c', cs', rfl, hpc, -⟩ := List.map_eq_cons_iff.1 hpages.symm
    rw [height_eq (ht.kid (List.mem_cons_self ..)) hc (ht'.kid (List.mem_cons_self ..)) hpc.symm]

theorem PT.On.eq : {h : Nat} → {t t' : PT h} → t.On s → t'.On s → t.page = t'.page → t = t'
  | 0, t, t', ht, ht', hp => by
    obtain ⟨p, cells, l, rfl⟩ := exists_leaf t
    obtain ⟨p', cells', l', rfl⟩ := exists_leaf t'
    obtain rfl : p = p' := hp
    obtain ⟨hc, hl⟩ : cells = cells' ∧ TreeLink.ofCode (ν := ν) l = TreeLink.ofCode l' :=
      Node.leaf.inj (Except.ok.inj (ht.load.symm.trans ht'.load))
    have hl := congrArg Link.code hl
    rw [TreeLink.code_ofCode, TreeLink.code_ofCode] at hl
    rw [hc, hl]
  | h + 1, t, t', ht, ht', hp => by
    obtain ⟨p, keys, kids, rfl⟩ := exists_branch t
    obtain ⟨p', keys', kids', rfl⟩ := exists_branch t'
    obtain rfl : p = p' := hp
    obtain ⟨rfl, hpages⟩ : keys = keys' ∧ kids.map page = kids'.map page :=
      Node.internal.inj (Except.ok.inj (ht.load.symm.trans ht'.load))
    have hlen : kids.length = kids'.length := by simpa using congrArg List.length hpages
    have hkids : kids = kids' := by
      refine List.ext_get hlen fun i hi hi' => (ht.kid (List.get_mem ..)).eq (ht'.kid (List.get_mem ..)) ?_
      have := congrArg (·[i]?) hpages
      simpa [hi, hi'] using this
    rw [hkids]

theorem TreeAt.on {t : Tree} (ht : TreeAt s t) : t.2.On s := fun n hn => ht.good.stored n (by simpa [PT.nodesL] using hn)

/-- A root has one tree only. -/
theorem TreeAt.unique {t t' : Tree} (ht : TreeAt s t) (ht' : TreeAt s t') (hr : t.root = t'.root) : t = t' := by
  obtain ⟨h, t⟩ := t
  obtain ⟨h', t'⟩ := t'
  obtain rfl : h = h' := ht.on.height_eq ht.bounded ht'.on hr
  exact congrArg (Sigma.mk h) (ht.on.eq ht'.on hr)

end Unique

/-! ### A run of insertions -/

/-- The store with an empty leaf on page 1. -/
def emptyStore : Store (Option Nat) where
  nodes _ := .ok (.leaf [] none)
  numPages := 2
  stale := []

theorem start_emptyStore : Start emptyStore 1 :=
  ⟨rfl, ⟨by decide, by decide⟩, rfl⟩

section Inserts

variable {key : Int} {value v : Bytes} {t t' : Tree} {n : Nat}

/-- An insertion whose result can be written. -/
theorem SoundTree.run_insert (hs : SoundTree s root t) (hk : IsI64 key) (hv : value.length ≤ maxValueSize)
    (hno : ∀ v, (key, v) ∉ t.cells) (hput : t.put key value s.numPages = .ok (t', n)) (hl : t'.Legal) :
    ∃ s', (BTree.insert s.numPages root key value).run s = .ok t'.root s' ∧ SoundTree s' t'.root t' ∧ s'.numPages = n := by
  obtain ⟨r, hput', -, hlegal⟩ := hs.exists_put hk hv hno
  obtain rfl := Except.ok.inj (hput'.symm.trans hput)
  obtain ⟨r, s', hrun⟩ := (hs.insert_returns hk hv hno).2 (hlegal.1 hl)
  obtain ⟨t'', hs', hput'', -⟩ := hs.insert hk hv hrun
  obtain ⟨rfl, rfl⟩ := Prod.mk.inj (Except.ok.inj (hput''.symm.trans hput))
  obtain rfl := hs'.root
  exact ⟨s', hrun, hs', rfl⟩

theorem SoundTree.step_insert (hs : SoundTree s root t) (hk : IsI64 key) (hv : value.length ≤ maxValueSize)
    (hno : ∀ v, (key, v) ∉ t.cells) (hput : t.put key value s.numPages = .ok (t', n)) (hl : t'.Legal) :
    ∃ s', TreeOp.step (s, root) (.insert key value) = some (s', t'.root) ∧ SoundTree s' t'.root t' ∧ s'.numPages = n := by
  obtain ⟨s', hrun, hs', hn⟩ := hs.run_insert hk hv hno hput hl
  have hexec : TreeOp.exec s.numPages root (.insert key value) s = .ok _ s' := hrun
  refine ⟨s', ?_, hs', hn⟩
  rw [TreeOp.step]
  simp only [hexec]

theorem bisectLeft_last {cells : List Cell} (hc : ∀ c ∈ cells, c.1 < key) : bisectLeft (cells.map Prod.fst) key = cells.length := by
  have := bisectLeft_append (l := cells.map Prod.fst) (r := []) (x := key) (by simpa using fun a b hab => hc (a, b) hab) (by simp)
  simpa using this

theorem PT.cellsWith_last {cells : List Cell} (hc : ∀ c ∈ cells, c.1 < key) : cellsWith key value cells = cells ++ [(key, value)] := by
  rw [cellsWith, bisectLeft_last hc]
  simp

/-- A leaf that has room for a cell behind the others. -/
theorem put_last {p l : Nat} {cells : List Cell} (hc : ∀ c ∈ cells, c.1 < key)
    (hs : 9 + cellsSize (cells ++ [(key, value)]) ≤ pageSize) :
    PT.put key value (PT.leaf p cells l) n = .ok (([], [PT.leaf p (cells ++ [(key, value)]) l]), n) := by
  have hno : ¬PT.hasKey cells key = true := by
    rw [PT.hasKey, bisectLeft_last hc]
    simp
  have hins : PT.cellsWith key value cells = cells ++ [(key, value)] := PT.cellsWith_last hc
  rw [PT.cellsWith] at hins
  rw [PT.put_leaf, if_neg hno, hins, PT.putLeaf, if_pos hs]

theorem put_last_root {p l : Nat} {cells : List Cell} (hc : ∀ c ∈ cells, c.1 < key)
    (hs : 9 + cellsSize (cells ++ [(key, value)]) ≤ pageSize) :
    Tree.put key value ⟨0, PT.leaf p cells l⟩ n = .ok (⟨0, PT.leaf p (cells ++ [(key, value)]) l⟩, n) := by
  rw [Tree.put]
  change (PT.put key value (PT.leaf p cells l) n >>= _) = _
  rw [put_last hc hs]
  rfl

theorem SoundTree.step_insert_last {p l : Nat} {cells : List Cell} (hs : SoundTree s root ⟨0, PT.leaf p cells l⟩) (hk : IsI64 key)
    (hv : value.length ≤ maxValueSize) (hc : ∀ c ∈ cells, c.1 < key)
    (hsize : 9 + cellsSize (cells ++ [(key, value)]) ≤ pageSize) :
    ∃ s', TreeOp.step (s, root) (.insert key value) = some (s', p) ∧ SoundTree s' p ⟨0, PT.leaf p (cells ++ [(key, value)]) l⟩ ∧
      s'.numPages = s.numPages := by
  obtain ⟨⟨hlink, hcs⟩, -⟩ := PT.fits_leaf.1 hs.legal
  refine hs.step_insert hk hv (fun v hv => ?_) (put_last_root hc hsize) (PT.fits_leaf.2 ⟨⟨hlink, fun c hcm => ?_⟩, hsize⟩)
  · rw [Tree.cells, PT.cellsL_leaf] at hv
    exact lt_irrefl _ (hc _ hv)
  · rcases List.mem_append.1 hcm with hcm | hcm
    · exact hcs c hcm
    · exact List.mem_singleton.1 hcm ▸ ⟨hk, hv⟩

theorem isI64_of_small {k : Int} (h : 0 ≤ k ∧ k < 100) : IsI64 k := ⟨by omega, by omega⟩

/-- Two values of 2048 bytes, each in a leaf of its own. -/
def twoLeaves (v : Bytes) : Tree := ⟨1, PT.branch 3 [2] [PT.leaf 1 [(1, v)] 2, PT.leaf 2 [(2, v)] noPage]⟩

/-- The second of two long values goes to a new leaf on page `n`, under a new root. -/
theorem put_twoLeaves (hv : v.length = 2048) (n : Nat) : Tree.put 2 v ⟨0, PT.leaf 1 [(1, v)] noPage⟩ n =
    .ok (⟨1, PT.branch (n + 1) [2] [PT.leaf 1 [(1, v)] n, PT.leaf n [(2, v)] noPage]⟩, n + 2) := by
  have hbig : ¬9 + cellsSize [(1, v), (2, v)] ≤ pageSize := by simp [hv, pageSize]
  have hput : PT.put 2 v (PT.leaf 1 [(1, v)] noPage) n =
      .ok (([2], [PT.leaf 1 [(1, v)] n, PT.leaf n [(2, v)] noPage]), n + 1) := by
    have hb : bisectLeft ([(1, v)].map Prod.fst) 2 = 1 := show bisectLeft [1] 2 = 1 by decide
    have hno : ¬PT.hasKey [(1, v)] 2 = true := by
      rw [PT.hasKey, hb]
      simp
    rw [PT.put_leaf, if_neg hno, hb]
    change PT.putLeaf 1 [(1, v), (2, v)] noPage n = _
    rw [PT.putLeaf, if_neg hbig]
    simp
  rw [Tree.put]
  change (PT.put 2 v (PT.leaf 1 [(1, v)] noPage) n >>= _) = _
  rw [hput]
  rfl

theorem legal_twoLeaves (hv : v.length = 2048) {n : Nat} (hn : n < 2 ^ 32) :
    Tree.Legal ⟨1, PT.branch (n + 1) [2] [PT.leaf 1 [(1, v)] n, PT.leaf n [(2, v)] noPage]⟩ := by
  have hleaf : ∀ (p l : Nat) (k : Int), 0 ≤ k ∧ k < 100 → l < 2 ^ 32 → (PT.leaf p [(k, v)] l).Legal := by
    intro p l k hk hl
    refine PT.fits_leaf.2 ⟨⟨hl, ?_⟩, by simp [hv, pageSize]⟩
    simpa using ⟨isI64_of_small hk, hv.trans_le (by decide)⟩
  refine PT.LegalKids.branch ⟨rfl, by simpa using isI64_of_small (by omega), ?_, by simpa using hn⟩ (by simp)
  simp only [List.mem_cons, List.not_mem_nil, or_false, forall_eq_or_imp, forall_eq]
  exact ⟨hleaf 1 n 1 (by omega) hn, hleaf n noPage 2 (by omega) (by decide)⟩

theorem run_twoLeaves (hv : v.length = 2048) :
    ∃ s, TreeRuns (emptyStore, 1) [.insert 1 v, .insert 2 v] (s, 3) ∧ SoundTree s 3 (twoLeaves v) ∧ s.numPages = 4 := by
  have hmax : v.length ≤ maxValueSize := hv.trans_le (by decide)
  obtain ⟨s₁, hstep₁, hs₁, hn₁⟩ := start_emptyStore.sound.step_insert_last (isI64_of_small (by omega) : IsI64 1) hmax
    (by simp) (by simp [hv, pageSize])
  obtain ⟨s₂, hstep₂, hs₂, hn₂⟩ := hs₁.step_insert (isI64_of_small (by omega) : IsI64 2) hmax
    (by simp [Tree.cells]) (by rw [hn₁]; exact put_twoLeaves hv 2) (legal_twoLeaves hv (by decide))
  refine ⟨s₂, .cons ⟨isI64_of_small (by omega), hmax⟩ hstep₁ (.cons ⟨isI64_of_small (by omega), hmax⟩ hstep₂
    (.nil _)), hs₂, hn₂⟩

theorem mem_cells_twoLeaves (n : Nat) {c : Cell} :
    c ∈ Tree.cells ⟨1, PT.branch (n + 1) [2] [PT.leaf 1 [(1, v)] n, PT.leaf n [(2, v)] noPage]⟩ ↔ c = (1, v) ∨ c = (2, v) := by
  simp [Tree.cells, PT.cellsL, PT.leavesL]

end Inserts

/-- 2048 bytes, the longest value. -/
def longValue : Bytes := List.replicate 2048 0

theorem length_longValue : longValue.length = 2048 := List.length_replicate

/-! ### Deletion -/

/-- `delete` returns unless the leaf of its key, underfull and without a left sibling that can spare a cell,
takes the only cell of its right sibling. -/
theorem delete_returns_iff (hstart : Start s₀ root₀) (hrun : TreeRuns (s₀, root₀) ops (s, root)) :
    ∃ t, TreeAt s t ∧ t.root = root ∧ ∀ key : Int,
      (∃ r s', (BTree.delete s.numPages root key).run s = .ok r s') ↔ ¬t.2.Starves key := by
  obtain ⟨t, hs⟩ := hrun.sound hstart
  exact ⟨t, hs.tree, hs.root, fun _ => hs.delete_returns⟩

/-- The last of two leaves has no leaf at its right. -/
theorem not_starves_last (p : Nat) (a b : PT 0) : ¬(PT.branch p [2] [a, b]).Starves 2 := by
  have hi : bisectRight [2] 2 = 1 := by decide
  change ¬PT.StarvesAt 2 [2] [a, b]
  rw [PT.StarvesAt, hi]
  rintro ⟨-, -, y, hy, -⟩
  cases hy

/-- Two leaves with one cell each: deleting the second key returns. -/
theorem delete_returns_twoLeaves : ∃ s, TreeRuns (emptyStore, 1) [.insert 1 longValue, .insert 2 longValue] (s, 3) ∧
    ∃ r s', (BTree.delete s.numPages 3 2).run s = .ok r s' := by
  obtain ⟨s, hrun, hs, -⟩ := run_twoLeaves length_longValue
  obtain ⟨t, ht, hr, hiff⟩ := delete_returns_iff start_emptyStore hrun
  obtain rfl := ht.unique hs.tree hr
  exact ⟨s, hrun, (hiff 2).2 (not_starves_last _ _ _)⟩

theorem starves_twoLeaves {v : Bytes} (hv : v.length = 2048) : (twoLeaves v).2.Starves 1 := by
  have hi : bisectRight [2] 1 = 0 := by decide
  change PT.StarvesAt 1 [2] [PT.leaf 1 [(1, v)] 2, PT.leaf 2 [(2, v)] noPage]
  rw [PT.StarvesAt, hi]
  have hb : bisectLeft [1] 1 = 0 := by decide
  refine ⟨⟨PT.leaf 1 [(1, v)] 2, rfl, ?_, ?_⟩, fun h => h.1 rfl, PT.leaf 2 [(2, v)] noPage, rfl, ?_, rfl⟩
  · change ([(1, v)][bisectLeft [1] 1]?).any (fun c => decide (c.1 = 1)) = true
    rw [hb]
    rfl
  · change (PT.leaf 1 ([(1, v)].eraseIdx (bisectLeft [1] 1)) 2).under = true
    rw [hb]
    rfl
  rw [PT.spare_eq_true, PT.size_leaf, cellsSize_cons]
  simp [hv, minBytes, pageSize]

/-- Two leaves with one cell each: deleting the first key raises. -/
theorem not_delete_returns : ∃ s, TreeRuns (emptyStore, 1) [.insert 1 longValue, .insert 2 longValue] (s, 3) ∧
    ¬∃ r s', (BTree.delete s.numPages 3 1).run s = .ok r s' := by
  obtain ⟨s, hrun, hs, -⟩ := run_twoLeaves length_longValue
  exact ⟨s, hrun, fun hr => hs.delete_returns.1 hr (starves_twoLeaves length_longValue)⟩

/-! ### Insertion -/

section Search

variable {s' : Store ν} {t t' : Tree} {key : Int} {value : Bytes}

theorem TreeAt.search_eq_some (ht : TreeAt s t) : LeafDb.search s.nodes s.numPages t.root key = .ok (some value) ↔
    (key, value) ∈ t.cells := by
  obtain ⟨r, hr, hv⟩ := ht.search key
  rw [hr, Except.ok.injEq]
  exact hv value

theorem TreeAt.search_eq_none (ht : TreeAt s t) : LeafDb.search s.nodes s.numPages t.root key = .ok none ↔
    ∀ v, (key, v) ∉ t.cells := by
  obtain ⟨r, hr, hv⟩ := ht.search key
  rw [hr, Except.ok.injEq]
  rcases r with _ | v
  · exact ⟨fun _ v hm => (nomatch (hv v).2 hm), fun _ => rfl⟩
  · exact ⟨nofun, fun hno => absurd ((hv v).1 rfl) (hno v)⟩

theorem TreeAt.search_congr (ht : TreeAt s t) (ht' : TreeAt s' t') (hc : ∀ v, (key, v) ∈ t'.cells ↔ (key, v) ∈ t.cells) :
    LeafDb.search s'.nodes s'.numPages t'.root key = LeafDb.search s.nodes s.numPages t.root key := by
  obtain ⟨r, hr, hv⟩ := ht.search key
  obtain ⟨r', hr', hv'⟩ := ht'.search key
  rw [hr, hr']
  congr 1
  refine Option.ext fun v => ?_
  rw [hv, hv', hc]

end Search

theorem PT.splits_le (key : Int) (value : Bytes) : {h : Nat} → (t : PT h) → t.splits key value ≤ h + 1
  | 0, t => by
    rw [splits]
    split <;> omega
  | h + 1, t => by
    rw [splits]
    split
    · rename_i c _
      have := splits_le key value c
      dsimp only
      split <;> omega
    · exact Nat.zero_le _

/-- `insert` of a new key returns if and only if the leaf of the key fits its page with the new cell, or both
of its halves at the middle of the cells do, and the new pages have numbers of 32 bits. -/
theorem insert_returns_iff (hstart : Start s₀ root₀) (hrun : TreeRuns (s₀, root₀) ops (s, root)) :
    ∃ t, TreeAt s t ∧ t.root = root ∧ ∀ (key : Int) (value : Bytes), IsI64 key → value.length ≤ maxValueSize →
      search s.nodes s.numPages root key = .ok none →
      ((∃ r s', (BTree.insert s.numPages root key value).run s = .ok r s') ↔
        t.2.Room key value ∧ (t.2.splits key value = 0 ∨ s.numPages + t.2.splits key value ≤ 2 ^ 32)) := by
  obtain ⟨t, hs⟩ := hrun.sound hstart
  obtain rfl := hs.root
  exact ⟨t, hs.tree, rfl, fun _ _ hk hv hno => hs.insert_returns hk hv (hs.tree.search_eq_none.1 hno)⟩

/-- Two leaves with one cell each: inserting a third key splits the second leaf, and returns. -/
theorem insert_returns_twoLeaves : ∃ s, TreeRuns (emptyStore, 1) [.insert 1 longValue, .insert 2 longValue] (s, 3) ∧
    ∃ r s', (BTree.insert s.numPages 3 3 longValue).run s = .ok r s' := by
  have hlen := length_longValue
  generalize longValue = v at hlen ⊢
  obtain ⟨s, hrun, hs, hn⟩ := run_twoLeaves hlen
  obtain ⟨t, ht, hr, hiff⟩ := insert_returns_iff start_emptyStore hrun
  obtain rfl := ht.unique hs.tree hr
  have hno : ∀ w, ((3 : Int), w) ∉ (twoLeaves v).cells := fun w => by simp [twoLeaves, mem_cells_twoLeaves 2]
  have hi : bisectRight [2] 3 = 1 := by decide
  have hcells : PT.cellsWith 3 v [(2, v)] = [(2, v), (3, v)] := PT.cellsWith_last (by simp)
  have hc : [PT.leaf 1 [(1, v)] 2, PT.leaf 2 [(2, v)] noPage][bisectRight [2] 3]? = some (PT.leaf 2 [(2, v)] noPage) := by
    rw [hi]
    rfl
  have hroom : (PT.leaf 2 [(2, v)] noPage).Room 3 v := by
    change 9 + cellsSize (PT.cellsWith 3 v [(2, v)]) ≤ pageSize ∨
      9 + cellsSize ((PT.cellsWith 3 v [(2, v)]).take ((PT.cellsWith 3 v [(2, v)]).length / 2)) ≤ pageSize ∧
        9 + cellsSize ((PT.cellsWith 3 v [(2, v)]).drop ((PT.cellsWith 3 v [(2, v)]).length / 2)) ≤ pageSize
    rw [hcells]
    exact .inr (by simp [hlen, pageSize])
  refine ⟨s, hrun, (hiff 3 v (isI64_of_small (by omega)) (hlen.trans_le (by decide)) (hs.tree.search_eq_none.2 hno)).2
    ⟨⟨_, hc, hroom⟩, .inr ?_⟩⟩
  have := PT.splits_le 3 v (twoLeaves v).2
  rw [hn]
  exact (Nat.add_le_add_left this 4).trans (show 4 + 2 ≤ 2 ^ 32 by decide)

/-- Two short values and a long one: inserting another long one raises. -/
theorem not_insert_returns : ∃ s, TreeRuns (emptyStore, 1) [.insert 1 [], .insert 2 [], .insert 3 longValue] (s, 1) ∧
    search s.nodes s.numPages 1 4 = .ok none ∧ ¬∃ r s', (BTree.insert s.numPages 1 4 longValue).run s = .ok r s' := by
  have hlen := length_longValue
  generalize longValue = v at hlen ⊢
  have hmax : v.length ≤ maxValueSize := hlen.trans_le (by decide)
  have h64 : ∀ k : Int, 0 ≤ k ∧ k < 100 → IsI64 k := fun k => isI64_of_small
  obtain ⟨s₁, hstep₁, hs₁, -⟩ := start_emptyStore.sound.step_insert_last (h64 1 (by omega))
    (by decide : ([] : Bytes).length ≤ maxValueSize) (by simp) (by decide)
  obtain ⟨s₂, hstep₂, hs₂, -⟩ := hs₁.step_insert_last (h64 2 (by omega))
    (by decide : ([] : Bytes).length ≤ maxValueSize) (by simp) (by decide)
  obtain ⟨s₃, hstep₃, hs₃, -⟩ := hs₂.step_insert_last (h64 3 (by omega)) hmax (by simp)
    (by simp [hlen, pageSize])
  have hno : ∀ w, ((4 : Int), w) ∉ Tree.cells ⟨0, PT.leaf 1 ([] ++ [(1, [])] ++ [(2, [])] ++ [(3, v)]) noPage⟩ := by
    simp [Tree.cells]
  refine ⟨s₃, .cons ⟨h64 1 (by omega), by decide⟩ hstep₁ (.cons ⟨h64 2 (by omega), by decide⟩ hstep₂
    (.cons ⟨h64 3 (by omega), hmax⟩ hstep₃ (.nil _))), ?_, fun hr => ?_⟩
  · exact hs₃.tree.search_eq_none.2 hno
  · obtain ⟨hroom, -⟩ := (hs₃.insert_returns (h64 4 (by omega)) hmax hno).1 hr
    have hcells : PT.cellsWith 4 v [(1, []), (2, []), (3, v)] = [(1, []), (2, []), (3, v), (4, v)] := PT.cellsWith_last (by simp)
    change 9 + cellsSize (PT.cellsWith 4 v [(1, []), (2, []), (3, v)]) ≤ pageSize ∨ _ ∧
      9 + cellsSize ((PT.cellsWith 4 v [(1, []), (2, []), (3, v)]).drop
        ((PT.cellsWith 4 v [(1, []), (2, []), (3, v)]).length / 2)) ≤ pageSize at hroom
    rw [hcells] at hroom
    simp [hlen, pageSize] at hroom

/-! ### Overwriting -/

theorem mem_setValue {key k : Int} {value v : Bytes} {cells : List Cell} :
    (k, v) ∈ setValue key value cells ↔ (k ≠ key ∧ (k, v) ∈ cells) ∨ k = key ∧ v = value ∧ ∃ w, (key, w) ∈ cells := by
  rw [setValue, List.mem_map]
  constructor
  · rintro ⟨⟨k', v'⟩, hc, he⟩
    by_cases hk : k' = key
    · subst hk
      rw [if_pos rfl] at he
      obtain ⟨rfl, rfl⟩ := Prod.mk.inj he
      exact .inr ⟨rfl, rfl, v', hc⟩
    · rw [if_neg hk] at he
      obtain ⟨rfl, rfl⟩ := Prod.mk.inj he
      exact .inl ⟨hk, hc⟩
  · rintro (⟨hk, hc⟩ | ⟨rfl, rfl, w, hc⟩)
    · exact ⟨_, hc, if_neg hk⟩
    · exact ⟨_, hc, if_pos rfl⟩

/-- `upsert` of a key that is there returns, and then gives it the value and leaves the other keys, if and
only if the leaf of the key fits its page with the new value. -/
theorem upsert_overwrites_iff (hstart : Start s₀ root₀) (hrun : TreeRuns (s₀, root₀) ops (s, root)) :
    ∃ t, TreeAt s t ∧ t.root = root ∧ ∀ (key : Int) (value w : Bytes), IsI64 key → value.length ≤ maxValueSize →
      search s.nodes s.numPages root key = .ok (some w) →
      ((∃ r s', BTree.upsert s.numPages root key value s = .ok r s' ∧
          search s'.nodes s'.numPages r key = .ok (some value) ∧
          ∀ k, k ≠ key → search s'.nodes s'.numPages r k = search s.nodes s.numPages root k) ↔
        t.2.RoomFor key value) := by
  obtain ⟨t, hs⟩ := hrun.sound hstart
  obtain rfl := hs.root
  refine ⟨t, hs.tree, rfl, fun key value w hk hv hw => ?_⟩
  have hkey : ∃ v, (key, v) ∈ t.cells := ⟨w, hs.tree.search_eq_some.1 hw⟩
  rw [← PT.replace_legal_iff hs.legal hk hv]
  change _ ↔ (t.replace key value).Legal
  rw [← hs.upsert_returns hv hkey]
  refine ⟨fun ⟨r, s', hrun, _⟩ => ⟨r, s', hrun⟩, fun ⟨r, s', hrun⟩ => ⟨r, s', hrun, ?_⟩⟩
  obtain ⟨hs', hcells⟩ := hs.upsert hv hkey hrun
  rw [← hs'.root]
  constructor
  · rw [hs'.tree.search_eq_some, hcells, mem_setValue]
    exact .inr ⟨rfl, rfl, hkey⟩
  · intro k hne
    refine hs.tree.search_congr hs'.tree fun v => ?_
    rw [hcells, mem_setValue]
    simp [hne]

/-- An overwriting whose result can be written. -/
theorem SoundTree.step_upsert {key : Int} {value : Bytes} {t : Tree} (hs : SoundTree s root t) (hv : value.length ≤ maxValueSize) (hkey : ∃ v, (key, v) ∈ t.cells)
    (hl : (t.replace key value).Legal) :
    ∃ s', TreeOp.step (s, root) (.upsert key value) = some (s', root) ∧ SoundTree s' root (t.replace key value) := by
  obtain ⟨r, s', hup⟩ := (hs.upsert_returns hv hkey).2 hl
  have hs' := (hs.upsert hv hkey hup).1
  obtain rfl : r = root := hs'.root.symm.trans ((PT.page_replace t.2).trans hs.root)
  have hexec : TreeOp.exec s.numPages r (.upsert key value) s = .ok r s' := hup
  refine ⟨s', ?_, hs'⟩
  rw [TreeOp.step]
  simp only [hexec]

/-- The only value of the first of two leaves is another one. -/
theorem replace_first {p q l : Nat} {v w : Bytes} (b : PT 0) :
    Tree.replace 1 w ⟨1, PT.branch p [2] [PT.leaf q [(1, v)] l, b]⟩ = ⟨1, PT.branch p [2] [PT.leaf q [(1, w)] l, b]⟩ := by
  have hi : bisectRight [2] 1 = 0 := by decide
  have hb : bisectLeft [1] 1 = 0 := by decide
  change Sigma.mk 1 (PT.branch p [2] ([PT.leaf q [(1, v)] l, b].modify (bisectRight [2] 1) (PT.replace 1 w))) = _
  rw [hi]
  change Sigma.mk 1 (PT.branch p [2] [PT.leaf q ([(1, v)].set (bisectLeft [1] 1) (1, w)) l, b]) = _
  rw [hb]
  rfl

theorem roomFor_first {p q l : Nat} {v w : Bytes} (hw : w.length ≤ 2048) (b : PT 0) :
    (PT.branch p [2] [PT.leaf q [(1, v)] l, b]).RoomFor 1 w := by
  have hi : bisectRight [2] 1 = 0 := by decide
  have hb : bisectLeft [1] 1 = 0 := by decide
  change ∃ c, [PT.leaf q [(1, v)] l, b][bisectRight [2] 1]? = some c ∧ _
  rw [hi]
  refine ⟨_, rfl, ?_⟩
  change 9 + cellsSize ([(1, v)].set (bisectLeft [1] 1) (1, w)) ≤ pageSize
  rw [hb]
  change 9 + (12 + w.length + 0) ≤ 4096
  omega

/-- Two leaves with one cell each: the first key gets a shorter value, the second keeps its own. -/
theorem upsert_overwrites_twoLeaves : ∃ s, TreeRuns (emptyStore, 1) [.insert 1 longValue, .insert 2 longValue] (s, 3) ∧
    ∃ r s', BTree.upsert s.numPages 3 1 [7] s = .ok r s' ∧ search s'.nodes s'.numPages r 1 = .ok (some [7]) ∧
      search s'.nodes s'.numPages r 2 = .ok (some longValue) := by
  obtain ⟨s, hrun, hs, -⟩ := run_twoLeaves length_longValue
  obtain ⟨t, ht, hr, hiff⟩ := upsert_overwrites_iff start_emptyStore hrun
  obtain rfl := ht.unique hs.tree hr
  have hone : search s.nodes s.numPages 3 1 = .ok (some longValue) :=
    hs.tree.search_eq_some.2 ((mem_cells_twoLeaves 2).2 (.inl rfl))
  have htwo : search s.nodes s.numPages 3 2 = .ok (some longValue) :=
    hs.tree.search_eq_some.2 ((mem_cells_twoLeaves 2).2 (.inr rfl))
  obtain ⟨r, s', hup, hnew, hold⟩ := (hiff 1 [7] longValue (isI64_of_small (by omega)) (by decide) hone).2
    (roomFor_first (by decide) _)
  exact ⟨s, hrun, r, s', hup, hnew, (hold 2 (by decide)).trans htwo⟩

/-- A long value and a short one: a long value in the place of the short one raises. -/
theorem not_upsert_overwrites : ∃ s, TreeRuns (emptyStore, 1) [.insert 1 longValue, .insert 2 []] (s, 1) ∧
    search s.nodes s.numPages 1 2 = .ok (some []) ∧ ¬∃ r s', BTree.upsert s.numPages 1 2 longValue s = .ok r s' := by
  have hlen := length_longValue
  generalize longValue = v at hlen ⊢
  have hmax : v.length ≤ maxValueSize := hlen.trans_le (by decide)
  have h64 : ∀ k : Int, 0 ≤ k ∧ k < 100 → IsI64 k := fun k => isI64_of_small
  obtain ⟨s₁, hstep₁, hs₁, -⟩ := start_emptyStore.sound.step_insert_last (h64 1 (by omega)) hmax (by simp)
    (by simp [hlen, pageSize])
  obtain ⟨s₂, hstep₂, hs₂, -⟩ := hs₁.step_insert_last (h64 2 (by omega)) (by decide : ([] : Bytes).length ≤ maxValueSize)
    (by simp) (by simp [hlen, pageSize])
  have hmem : ((2 : Int), ([] : Bytes)) ∈ Tree.cells ⟨0, PT.leaf 1 ([] ++ [(1, v)] ++ [(2, [])]) noPage⟩ := by
    simp [Tree.cells]
  refine ⟨s₂, .cons ⟨h64 1 (by omega), hmax⟩ hstep₁ (.cons ⟨h64 2 (by omega), by decide⟩ hstep₂ (.nil _)),
    hs₂.tree.search_eq_some.2 hmem, fun hr => ?_⟩
  have hl := (hs₂.upsert_returns hmax ⟨_, hmem⟩).1 hr
  have hroom := (PT.replace_legal_iff hs₂.legal (h64 2 (by omega)) hmax).1 hl
  have hb : bisectLeft ([((1 : Int), v), (2, [])].map Prod.fst) 2 = 1 := show bisectLeft [1, 2] 2 = 1 by decide
  change 9 + cellsSize ([(1, v), (2, [])].set (bisectLeft ([(1, v), (2, [])].map Prod.fst) 2) (2, v)) ≤
    pageSize at hroom
  rw [hb] at hroom
  simp [hlen, pageSize] at hroom

end LeafDb
