import LeafDb.TreeValue

/-!
# Insertion keeps the shape of a tree

`does_insertRec`: by induction on the height, insertion leaves one tree or two with a separator in the
place of the one it was given, with the cells of the old one and the new cell.
-/

namespace LeafDb

variable {ν α β : Type} [TreeLink ν] {strict : Prop}

/-! ### What a page program does -/

theorem TreeM.run_bind (x : TreeM ν α) (f : α → TreeM ν β) : (x >>= f).run = (x.run >>= fun a => (f a).run) := by
  funext s
  change (x.bind f).run s = EStateM.bind x.run (fun a => (f a).run) s
  induction x generalizing s with
  | pure a => rfl
  | fail e => rfl
  | load n k ih =>
    simp only [TreeM.bind, TreeM.run, EStateM.bind]
    by_cases hst : n ∈ s.stale
    · simp [hst]
    · by_cases hlt : s.numPages ≤ n ∧ n ≠ 0
      · simp [hst, hlt]
      · rcases hn : s.nodes n with e | nd
        · simp [hst, hlt]
        · simp only [hst, hlt, if_false]
          exact ih nd s
  | mutate n nd k ih => exact ih _
  | write n nd k ih =>
    simp only [TreeM.bind, TreeM.run, EStateM.bind]
    rcases hf : nd.fits with e | ⟨⟩
    · rfl
    · exact ih _
  | allocate k ih => exact ih _ _

/-- The outcome of a page program. -/
abbrev Does (x : TreeM ν α) (s : Store ν) (Q : α → Store ν → Prop) (E : Failure → Store ν → Prop) : Prop :=
  Exec.Post x.run s Q E

/-- A failure other than a duplicate key; there was fuel enough. -/
def Abort (e : Failure) : Prop := e ≠ .stale ∧ e ≠ .raised .diverges ∧ ∀ k, e ≠ .raised (.duplicateKey k)

section Rules

variable {s : Store ν} {Q : α → Store ν → Prop} {E : Failure → Store ν → Prop}

theorem does_bind {x : TreeM ν β} {f : β → TreeM ν α} :
    Does (x >>= f) s Q E ↔ Does x s (fun a t => Does (f a) t Q E) E := by
  rw [Does, TreeM.run_bind]
  exact Exec.post_bind

theorem does_pure {a : α} : Does (pure a : TreeM ν α) s Q E ↔ Q a s := Iff.rfl

theorem does_fail {e : PyError} : Does (.fail e : TreeM ν α) s Q E ↔ E (.raised e) s := Iff.rfl

theorem does_load {n : Nat} {nd : Node ν} {Q : Node ν → Store ν → Prop} (hst : s.stale = [])
    (hr : 0 < n ∧ n < s.numPages) (hn : s.nodes n = .ok nd) : Does (loadNode n) s Q E ↔ Q nd s := by
  have hlt : ¬(s.numPages ≤ n ∧ n ≠ 0) := fun h => absurd hr.2 (not_lt.2 h.1)
  simp only [Does, Exec.Post, loadNode, TreeM.run, hst, List.not_mem_nil, hlt, hn, if_false]

theorem does_mutate {n : Nat} {nd : Node ν} {Q : Unit → Store ν → Prop} :
    Does (mutate n nd) s Q E ↔ Q () { s with stale := n :: s.stale } := Iff.rfl

theorem fits_error {nd : Node ν} {e : PyError} (h : nd.fits = .error e) : Abort (.raised e) := by
  have he : e = .valueError ∨ e = .structError := by
    unfold Node.fits Node.toBytes at h
    split at h
    · simp only [bind, Except.bind] at h
      split at h <;> cases h
      exact .inl rfl
    · cases h
      exact .inr rfl
  rcases he with rfl | rfl <;> exact ⟨by simp, by simp, by simp⟩

theorem does_write {n : Nat} {nd : Node ν} {Q : Unit → Store ν → Prop} (hQ : Q () (s.set n nd))
    (hE : ∀ e, Abort e → E e s) : Does (writeNode n nd) s Q E := by
  simp only [Does, Exec.Post, writeNode, TreeM.run]
  rcases hf : nd.fits with e | ⟨⟩
  · exact hE _ (fits_error hf)
  · exact hQ

/-- The write, with what it says about the node. -/
theorem does_write_of {n : Nat} {nd : Node ν} {Q : Unit → Store ν → Prop} (hQ : nd.fits = .ok () → Q () (s.set n nd))
    (hE : ∀ e, nd.fits = .error e → E (.raised e) s) : Does (writeNode n nd) s Q E := by
  simp only [Does, Exec.Post, writeNode, TreeM.run]
  rcases hf : nd.fits with e | ⟨⟩
  · exact hE e hf
  · exact hQ hf

theorem does_allocate {Q : Nat → Store ν → Prop} : Does allocatePage s Q E ↔ Q s.numPages s.grow := Iff.rfl

theorem does_at {β : Type} {xs : List β} {i : Nat} {a : β} {Q : β → Store ν → Prop} (h : xs[i]? = some a) :
    Does (at? xs i) s Q E ↔ Q a s := by
  simp only [at?, h]
  rfl

theorem does_lift {x : Except PyError β} {Q : β → Store ν → Prop} (hQ : ∀ b, x = .ok b → Q b s)
    (hE : ∀ e, x = .error e → E (.raised e) s) : Does (TreeM.lift x : TreeM ν β) s Q E := by
  rcases x with e | b
  · exact hE e rfl
  · exact hQ b rfl

end Rules

theorem serializedSize_error {nd : Node ν} {e : PyError} (h : nd.serializedSize = .error e) : Abort (.raised e) := by
  unfold Node.serializedSize Node.toBytes at h
  split at h
  · cases h
  · cases h
    exact ⟨by simp, by simp, by simp⟩

/-- Changing the object of a page and writing it is writing it. -/
theorem Store.set_of_mutate {s : Store ν} {n : Nat} {nd : Node ν} :
    ({ s with stale := n :: s.stale } : Store ν).set n nd = s.set n nd := by
  simp [Store.set]

section PutOrSplit

variable {s : Store ν} {n : Nat} {nd : Node ν} {split : TreeM ν (Int × Nat)} {Q : Option (Int × Nat) → Store ν → Prop}
  {E : Failure → Store ν → Prop}

theorem does_putOrSplit (hE : ∀ e t, nd.serializedSize = .error e → E (.raised e) t)
    (hfit : nd.fits = .ok () → ∀ size, nd.serializedSize = .ok size → size ≤ pageSize → Q none (s.set n nd))
    (hsplit : ∀ size, nd.serializedSize = .ok size → pageSize < size →
      Does split { s with stale := n :: s.stale } (fun r t => Q (some r) t) E) :
    Does (BTree.putOrSplit n nd split) s Q E := by
  rw [BTree.putOrSplit, does_bind, does_mutate, does_bind]
  refine does_lift (fun size hsize => ?_) fun e he => hE _ _ he
  split
  · rename_i hle
    rw [does_bind]
    refine does_write_of (fun hf => ?_) fun e he => ?_
    · rw [Store.set_of_mutate]
      exact hfit hf size hsize hle
    · cases (fits_of_serializedSize hsize hle).symm.trans he
  · rename_i hgt
    rw [does_bind]
    exact hsplit size hsize (not_le.1 hgt)

/-- The store after a split: page `n` and the new page are written. -/
theorem nodes_split {s : Store ν} {n : Nat} {left right : Node ν} (hst : s.stale = [n]) (hn : n < s.numPages) :
    let t := (s.grow.set s.numPages right).set n left
    t.nodes n = .ok left.reread ∧ t.nodes s.numPages = .ok right.reread ∧
      (∀ m, m ≠ n → m ≠ s.numPages → t.nodes m = s.nodes m) ∧ t.numPages = s.numPages + 1 ∧ t.stale = [] := by
  refine ⟨by simp, ?_, fun m hm hq => ?_, ?_, ?_⟩
  · rw [Store.nodes_set_other hn.ne', Store.nodes_set_self]
  · rw [Store.nodes_set_other hm, Store.nodes_set_other hq]
    simp [Store.grow, hq]
  · simp only [Store.set, Store.grow]
    omega
  · simp [Store.set, Store.grow, hst]

end PutOrSplit

/-! ### The leaf that takes the cell -/

theorem insertIdx_append (L R : List α) (a : α) : (L ++ R).insertIdx L.length a = L ++ a :: R := by
  induction L with
  | nil => simp
  | cons b L ih => simp [ih]

/-- The cells of a leaf around a key. -/
theorem exists_around {cells : List Cell} (ha : Ascending cells) (key : Int) :
    ∃ L R, cells = L ++ R ∧ bisectLeft (cells.map Prod.fst) key = L.length ∧ (∀ c ∈ L, c.1 < key) ∧
      ((∃ v R', R = (key, v) :: R' ∧ ∀ c ∈ R', key < c.1) ∨ ∀ c ∈ R, key < c.1) := by
  obtain ⟨l, r, hlr, hi, hl, hr⟩ := exists_bisectLeft (List.pairwise_map.2 ha) key
  obtain ⟨L, R, rfl, rfl, rfl⟩ := List.map_eq_append_iff.1 hlr
  refine ⟨L, R, rfl, by simpa using hi, fun c hc => hl _ (List.mem_map_of_mem hc), ?_⟩
  have hR := (List.pairwise_append.1 ha).2.1
  rcases R with _ | ⟨c, R⟩
  · exact .inr (by simp)
  · obtain ⟨hc, -⟩ := List.pairwise_cons.1 hR
    have hle := hr c.1 (by simp)
    rcases hle.eq_or_lt with he | hlt
    · exact .inl ⟨c.2, R, by rw [he], fun c' hc' => he ▸ hc c' hc'⟩
    · refine .inr fun c' hc' => ?_
      rcases List.mem_cons.1 hc' with rfl | hc'
      · exact hlt
      · exact hlt.trans (hc c' hc')

theorem ascending_insert {L R : List Cell} {key : Int} {value : Bytes} (ha : Ascending (L ++ R)) (hL : ∀ c ∈ L, c.1 < key)
    (hR : ∀ c ∈ R, key < c.1) : Ascending (L ++ (key, value) :: R) := by
  obtain ⟨h1, h2, h3⟩ := List.pairwise_append.1 ha
  refine List.pairwise_append.2 ⟨h1, List.pairwise_cons.2 ⟨hR, h2⟩, fun a haL b hb => ?_⟩
  rcases List.mem_cons.1 hb with rfl | hb
  · exact hL a haL
  · exact h3 a haL b hb

/-! ### Insertion -/

variable {h : Nat}

/-- What insertion makes of the tree `t`: one tree, or two with a separator. -/
structure Inserted (strict : Prop) (s : Store ν) (lo hi : Option Int) (key : Int) (value : Bytes) (t : PT h)
    (r : Option (Int × Nat))
    (s' : Store ν) (ds : List (PT h)) : Prop where
  pages : ds.map PT.page = t.page :: r.toList.map Prod.snd
  good : Good strict s' lo hi (r.toList.map Prod.fst) ds
  steps : Steps s s' [t] ds
  stale : s'.stale = []
  cells : ∀ c, c ∈ PT.cellsL ds ↔ c = (key, value) ∨ c ∈ PT.cellsL [t]
  full : h = 0 ∨ PT.Full [t] → PT.Full ds
  fresh : ∀ v, (key, v) ∉ PT.cellsL [t]

/-- What insertion makes of the tree as a value, and that it could be written. -/
def Puts (t : PT h) (key : Int) (value : Bytes) (n : Nat) (g : PT.Grown h) : Prop :=
  Insertable t key value → PT.put key value t n = .ok g ∧ ∀ d ∈ g.1.2, d.Legal

/-- Insertion makes nothing of the tree that could be written. -/
def Refuses (t : PT h) (key : Int) (value : Bytes) (n : Nat) : Prop :=
  Insertable t key value → ∀ g, PT.put key value t n = .ok g → ¬∀ d ∈ g.1.2, d.Legal

/-- How insertion fails: a duplicate key is reported before anything is changed. -/
def InsertError (s : Store ν) (key : Int) (t : PT h) (e : Failure) (s' : Store ν) : Prop :=
  e ≠ .stale ∧ e ≠ .raised .diverges ∧
    ∀ k, e = .raised (.duplicateKey k) → s' = s ∧ k = key ∧ ∃ v, (key, v) ∈ PT.cellsL [t]

omit [TreeLink ν] in
theorem InsertError.of_abort {s s' : Store ν} {key : Int} {t : PT h} {e : Failure} (he : Abort e) :
    InsertError s key t e s' :=
  ⟨he.1, he.2.1, fun k hk => absurd hk (he.2.2 k)⟩

theorem good_leaf {s : Store ν} {lo hi : Option Int} {p l : Nat} {cells : List Cell} (ha : Ascending cells)
    (hin : ∀ c ∈ cells, InRange lo hi c.1) (hle : ∀ a ∈ lo, ∀ b ∈ hi, Below strict a b)
    (hs : s.nodes p = .ok (.leaf cells (TreeLink.ofCode l))) (hr : 0 < p ∧ p < s.numPages) :
    Good strict s lo hi [] [PT.leaf p cells l] :=
  ⟨.one ⟨ha, hin⟩ hle, by simpa [PT.nodesL] using hs, by simp [PT.pagesL], by simpa [PT.pagesL] using hr,
    by simp [PT.leavesL]⟩

theorem Good.of_leaf {s : Store ν} {lo hi : Option Int} {p l : Nat} {cells : List Cell}
    (g : Good strict s lo hi [] [PT.leaf p cells l]) :
    Ascending cells ∧ (∀ c ∈ cells, InRange lo hi c.1) ∧ (∀ a ∈ lo, ∀ b ∈ hi, Below strict a b) ∧
      s.nodes p = .ok (.leaf cells (TreeLink.ofCode l)) ∧ 0 < p ∧ p < s.numPages := by
  obtain ⟨hkids, hstored, hnodup, hrange, hchain⟩ := g
  rcases hkids with ⟨⟨ha, hin⟩, hle⟩
  exact ⟨ha, hin, hle, hstored (p, .leaf cells (TreeLink.ofCode l)) (by simp [PT.nodesL]), hrange p (by simp [PT.pagesL])⟩

/-- A leaf is written with other cells. -/
theorem Good.write_leaf {s : Store ν} {lo hi : Option Int} {p l : Nat} {cells cells' : List Cell}
    (g : Good strict s lo hi [] [PT.leaf p cells l]) (ha : Ascending cells') (hin : ∀ c ∈ cells', InRange lo hi c.1) :
    Good strict (s.set p (.leaf cells' (TreeLink.ofCode l))) lo hi [] [PT.leaf p cells' l] ∧
      Steps s (s.set p (.leaf cells' (TreeLink.ofCode l))) [PT.leaf p cells l] [PT.leaf p cells' l] := by
  obtain ⟨-, -, hle, -, hp⟩ := g.of_leaf
  refine ⟨good_leaf ha hin hle ?_ ⟨hp.1, hp.2.trans_le (le_max_left _ _)⟩, fun q hq => .inl ?_, fun q _ hq => ?_,
    le_max_left _ _, ?_, ?_⟩
  · simp [Node.reread, TreeLink.code_ofCode]
  · simpa [PT.pagesL] using hq
  · exact Store.nodes_set_other fun e => hq (by simp [PT.pagesL, e])
  · simp [PT.leavesL]
  · simp [PT.leavesL]

theorem fits_reread (nd : Node ν) : nd.reread.fits = nd.fits := by
  rcases nd with ⟨cells, next⟩ | ⟨keys, children⟩
  · have hpk : (Node.leaf cells (TreeLink.ofCode (ν := ν) (Link.code next))).Packable ↔ (Node.leaf cells next).Packable := by
      simp only [Node.Packable, TreeLink.code_ofCode]
    simp only [Node.reread, Node.fits, Node.toBytes, Node.encode, TreeLink.code_ofCode, hpk]
  · rfl

/-- The left half of a split is written with the page of the right half. -/
theorem fits_ofPage (p n : Nat) (cells : List Cell) :
    (Node.leaf cells (TreeLink.ofPage n) : Node ν).fits = ((PT.leaf p cells n).node (ν := ν)).fits := by
  rw [← fits_reread, Node.reread, TreeLink.code_ofPage]
  rfl

theorem does_insertLeaf {s : Store ν} {lo hi : Option Int} {key : Int} {value : Bytes} {p l : Nat} {cells : List Cell}
    (g : Good strict s lo hi [] [PT.leaf p cells l]) (hst : s.stale = []) (hin : InRange lo hi key) {fuel : Nat} :
    Does (BTree.insertRec (fuel + 1) p key value) s
      (fun r s' => ∃ ds, Inserted strict s lo hi key value (PT.leaf p cells l) r s' ds ∧
        Puts (PT.leaf p cells l) key value s.numPages ((r.toList.map Prod.fst, ds), s'.numPages))
      fun e s' => InsertError s key (PT.leaf p cells l) e s' ∧ Refuses (PT.leaf p cells l) key value s.numPages := by
  obtain ⟨ha, hrange, hle, hs, hp⟩ := g.of_leaf
  rw [BTree.insertRec, does_bind, does_load hst hp hs]
  obtain ⟨L, R, rfl, hi', hL, hR⟩ := exists_around ha key
  simp only
  rw [hi', List.getElem?_append_right le_rfl, Nat.sub_self]
  rcases hR with ⟨v, R', rfl, -⟩ | hR
  · -- the key is there
    rw [if_pos (by simp), does_fail]
    refine ⟨⟨by simp, by simp, fun k hk => ⟨rfl, ?_, v, ?_⟩⟩, fun _ g hg => ?_⟩
    · cases hk
      rfl
    · simp
    · rw [PT.put_leaf, PT.hasKey_append hi', if_pos (by simp)] at hg
      cases hg
  have hno : ¬(R[0]?).any (fun c => decide (c.1 = key)) = true := by
    rcases R with _ | ⟨c, R⟩
    · simp
    · have := hR c (by simp)
      simp only [List.getElem?_cons_zero, Option.any_some, decide_eq_true_eq]
      omega
  rw [if_neg hno]
  have hins : (L ++ R).insertIdx L.length (key, value) = L ++ (key, value) :: R := insertIdx_append _ _ _
  have hasc := @ascending_insert L R key value ha hL hR
  have hrange' : ∀ c ∈ L ++ (key, value) :: R, InRange lo hi c.1 := by
    intro c hc
    rcases List.mem_append.1 hc with hc | hc
    · exact hrange c (List.mem_append_left _ hc)
    · rcases List.mem_cons.1 hc with rfl | hc
      · exact hin
      · exact hrange c (List.mem_append_right _ hc)
  have hmem : ∀ c, c ∈ L ++ (key, value) :: R ↔ c = (key, value) ∨ c ∈ L ++ R := by
    intro c
    simp only [List.mem_append, List.mem_cons]
    tauto
  have hfresh : ∀ v, (key, v) ∉ L ++ R := by
    intro v hv
    rcases List.mem_append.1 hv with hv | hv
    · exact absurd (hL _ hv) (lt_irrefl _)
    · exact absurd (hR _ hv) (lt_irrefl _)
  have hput : PT.put key value (PT.leaf p (L ++ R) l) s.numPages =
      PT.putLeaf p (L ++ (key, value) :: R) l s.numPages := by
    rw [PT.put_leaf, PT.hasKey_append hi', List.head?_eq_getElem?, if_neg hno, hi', hins]
  have hpacks : Insertable (PT.leaf p (L ++ R) l) key value → (PT.leaf p (L ++ (key, value) :: R) l).Packs ∧
      (PT.leaf p (L ++ (key, value) :: R) l).size < 2 ^ 32 := by
    rintro ⟨hl, hk, hv⟩
    obtain ⟨⟨hlink, hc⟩, hs⟩ := PT.fits_leaf.1 hl
    refine ⟨⟨hlink, fun c hcm => ?_⟩, ?_⟩
    · rcases (hmem c).1 hcm with rfl | hcm
      · exact ⟨hk, hv⟩
      · exact hc c hcm
    · rw [maxValueSize, pageSize] at hv
      rw [cellsSize_append, pageSize] at hs
      rw [PT.size_leaf, cellsSize_append, cellsSize_cons]
      simp only
      omega
  have hvalue : Insertable (PT.leaf p (L ++ R) l) key value → ∀ c ∈ L ++ (key, value) :: R, c.2.length ≤ maxValueSize :=
    fun hi c hcm => ((hpacks hi).1.2 c hcm).2
  rw [hins]
  refine does_putOrSplit (fun e t he => ⟨.of_abort (serializedSize_error he), fun hi => ?_⟩) (fun hf size hsize hle => ?_)
    fun size hsize hgt => ?_
  · -- the size is always found
    obtain ⟨hp', hs'⟩ := hpacks hi
    cases (PT.Packs.serializedSize (ν := ν) hp' hs').symm.trans he
  · -- the leaf has room
    obtain ⟨hgood, hsteps⟩ := g.write_leaf hasc hrange'
    refine ⟨[PT.leaf p (L ++ (key, value) :: R) l], ⟨by simp, hgood, hsteps, ?_, ?_, ?_, ?_⟩, fun hi => ?_⟩
    rotate_left 4
    · have hfits : (PT.leaf p (L ++ (key, value) :: R) l).Fits := PT.fits_of_leaf hf (hvalue hi)
      refine ⟨?_, fun d hd => List.mem_singleton.1 hd ▸ hfits⟩
      have hle' : 9 + cellsSize (L ++ (key, value) :: R) ≤ pageSize := hfits.2
      rw [hput, PT.putLeaf, if_pos hle', Store.numPages_set hp.2]
      rfl
    · simp [Store.set, hst]
    · simpa using hmem
    · intro _ x hx
      obtain rfl : x = ⟨p, L ++ (key, value) :: R, l⟩ := by simpa [PT.leavesL] using hx
      simp
    · simpa using hfresh
  · -- the leaf is split
    rw [BTree.splitLeaf]
    have hbig : Insertable (PT.leaf p (L ++ R) l) key value → ¬9 + cellsSize (L ++ (key, value) :: R) ≤ pageSize := by
      intro hi
      obtain ⟨hp', hs'⟩ := hpacks hi
      obtain rfl : size = 9 + cellsSize (L ++ (key, value) :: R) :=
        Except.ok.inj (hsize.symm.trans (PT.Packs.serializedSize hp' hs'))
      exact not_le.2 hgt
    generalize hcs : L ++ (key, value) :: R = cs at *
    split
    · rename_i hmid
      refine ⟨InsertError.of_abort ⟨by simp, by simp⟩, fun hi g hg => ?_⟩
      rw [hput, PT.putLeaf, if_neg (hbig hi)] at hg
      simp only [hmid, if_true] at hg
      cases hg
    rename_i hmid
    -- when the halves fit, both are written
    have hfits : Insertable (PT.leaf p (L ++ R) l) key value → ∀ g, PT.put key value (PT.leaf p (L ++ R) l) s.numPages = .ok g →
        (∀ d ∈ g.1.2, d.Legal) → (PT.leaf p (cs.take (cs.length / 2)) s.numPages).Fits ∧
          (PT.leaf s.numPages (cs.drop (cs.length / 2)) l).Fits := by
      intro hi g hg hleg
      rw [hput] at hg
      obtain ⟨hle, -⟩ | ⟨first, -, -, rfl⟩ := PT.putLeaf_eq_ok hg
      · exact absurd hle (hbig hi)
      · exact ⟨hleg _ (by simp), hleg _ (by simp)⟩
    rw [does_bind, does_allocate, does_bind]
    refine does_write_of (fun hfr => ?_) fun e he => ⟨.of_abort (fits_error he), fun hi g hg hleg => ?_⟩
    swap
    · cases (PT.Fits.node_fits (ν := ν) (hfits hi g hg hleg).2).symm.trans he
    rw [does_bind]
    refine does_write_of (fun hfl => ?_) fun e he => ⟨.of_abort (fits_error he), fun hi g hg hleg => ?_⟩
    swap
    · rw [fits_ofPage p] at he
      cases (PT.Fits.node_fits (ν := ν) (hfits hi g hg hleg).1).symm.trans he
    rw [fits_ofPage p] at hfl
    have hlt : cs.length / 2 < cs.length := Nat.div_lt_self (by omega) (by omega)
    have hdrop : (cs.drop (cs.length / 2))[0]? = some cs[cs.length / 2] := by
      rw [List.getElem?_drop, Nat.add_zero, List.getElem?_eq_getElem hlt]
    rw [does_bind, does_at hdrop]
    have hputs : Puts (PT.leaf p (L ++ R) l) key value s.numPages (([cs[cs.length / 2].1],
        [PT.leaf p (cs.take (cs.length / 2)) s.numPages, PT.leaf s.numPages (cs.drop (cs.length / 2)) l]), s.numPages + 1) := by
      intro hi
      refine ⟨?_, ?_⟩
      · rw [hput, PT.putLeaf, if_neg (hbig hi)]
        simp only [hmid, if_false, List.head?_eq_getElem?, hdrop]
      · simp only [List.mem_cons, List.not_mem_nil, or_false, forall_eq_or_imp, forall_eq]
        exact ⟨PT.fits_of_leaf (ν := ν) hfl fun c hc => hvalue hi c (List.mem_of_mem_take hc),
          PT.fits_of_leaf (ν := ν) hfr fun c hc => hvalue hi c (List.mem_of_mem_drop hc)⟩
    have hcut := List.take_append_drop (cs.length / 2) cs
    have hsep := hdrop
    clear hfits hfl hfr
    generalize cs[cs.length / 2] = first at hdrop hsep hputs ⊢
    have htake : cs.take (cs.length / 2) ≠ [] := by
      intro he
      have := congrArg List.length he
      simp only [List.length_take, List.length_nil] at this
      omega
    generalize cs.take (cs.length / 2) = A at hcut htake hputs ⊢
    generalize cs.drop (cs.length / 2) = B at hcut hdrop hsep hputs ⊢
    obtain ⟨B', rfl⟩ : ∃ B', B = first :: B' := by
      rcases B with _ | ⟨b, B'⟩
      · simp at hsep
      · exact ⟨B', by simpa using hsep⟩
    subst hcut
    obtain ⟨hA, hB, hAB⟩ := List.pairwise_append.1 hasc
    obtain ⟨hfB, -⟩ := List.pairwise_cons.1 hB
    obtain ⟨hn1, hn2, hn3, hn4, hn5⟩ := @nodes_split ν _ { s with stale := p :: s.stale } p
      (.leaf A (TreeLink.ofPage s.numPages)) (.leaf (first :: B') (TreeLink.ofCode l)) (by simp [hst]) hp.2
    rw [Node.reread, TreeLink.code_ofPage] at hn1
    rw [Node.reread, TreeLink.code_ofCode] at hn2
    have hpq : p ≠ s.numPages := hp.2.ne
    refine ⟨[PT.leaf p A s.numPages, PT.leaf s.numPages (first :: B') l], ⟨by simp, ?_, ⟨?_, ?_, ?_, ?_, ?_⟩,
      hn5, ?_, ?_, ?_⟩, ?_⟩
    rotate_left 9
    · rw [hn4]
      exact hputs
    · refine (good_leaf hA (fun c hc => ⟨(hrange' c (by simp [hc])).1, ?_⟩) ?_ hn1
          ⟨hp.1, by rw [hn4]; exact Nat.lt_succ_of_lt hp.2⟩).append
        (good_leaf hB (fun c hc => ⟨?_, (hrange' c (by simp [hc])).2⟩) ?_ hn2
          ⟨hp.1.trans hp.2, by rw [hn4]; exact Nat.lt_succ_self _⟩)
        ?_ ?_
      · rintro b hb
        cases hb
        exact hAB c hc first (by simp)
      · rintro a ha' b hb
        cases hb
        obtain ⟨x, A', rfl⟩ := List.exists_cons_of_ne_nil htake
        exact .of_lt (((hrange' x (by simp)).1 a ha').trans_lt (hAB x (by simp) first (by simp)))
      · rintro a ha'
        cases ha'
        rcases List.mem_cons.1 hc with rfl | hc
        · exact le_rfl
        · exact (hfB c hc).le
      · rintro a ha' b hb
        cases ha'
        exact .of_lt ((hrange' first (by simp)).2 b hb)
      · simpa [PT.pagesL] using hpq
      · simp [PT.leavesL, Next]
    · intro q hq'
      simp only [PT.pagesL, List.flatMap_cons, List.flatMap_nil, PT.pages_leaf, List.mem_append, List.mem_singleton,
        List.not_mem_nil, or_false] at hq'
      rcases hq' with rfl | rfl
      · exact .inl (by simp [PT.pagesL])
      · exact .inr le_rfl
    · intro q hlt' hq'
      exact hn3 q (fun e => hq' (by simp [PT.pagesL, e])) hlt'.ne
    · rw [hn4]
      exact Nat.le_succ _
    · simp [PT.leavesL]
    · simp [PT.leavesL]
    · intro c
      rw [PT.cellsL_leaf]
      have : PT.cellsL [PT.leaf p A s.numPages, PT.leaf s.numPages (first :: B') l] = A ++ first :: B' := by
        simp [PT.cellsL, PT.leavesL]
      rw [this]
      exact hmem c
    · intro _ x hx
      simp only [PT.leavesL, List.flatMap_cons, List.flatMap_nil, PT.leaves_leaf, List.mem_append, List.mem_singleton,
        List.not_mem_nil, or_false] at hx
      rcases hx with rfl | rfl
      · exact htake
      · simp
    · simpa using hfresh

/-- The child where a key belongs. -/
theorem Good.child {s : Store ν} {lo hi : Option Int} {keys : List Int} {kids : List (PT h)} (g : Good strict s lo hi keys kids)
    (key : Int) :
    ∃ ka kb ca c cb, keys = ka ++ [] ++ kb ∧ kids = ca ++ [c] ++ cb ∧ ka.length = ca.length ∧ kb.length = cb.length ∧
      bisectRight keys key = ka.length ∧ (∀ a ∈ ka, a ≤ key) ∧ (∀ b ∈ kb, key < b) ∧
      (∀ d ∈ PT.cellsL ca, d.1 < key) ∧ ∀ d ∈ PT.cellsL cb, key < d.1 := by
  obtain ⟨ka, kb, rfl, hi', ha, hb⟩ := exists_bisectRight_of_le (g.kids.pairwise.imp And.left) key
  have hlen := g.kids.length_eq
  rw [List.length_append] at hlen
  have hlt : ka.length < kids.length := by omega
  have hkids : kids = kids.take ka.length ++ kids[ka.length] :: kids.drop (ka.length + 1) := by
    rw [List.getElem_cons_drop, List.take_append_drop]
  have hla : ka.length = (kids.take ka.length).length := by
    rw [List.length_take, min_eq_left hlt.le]
  have hlb : kb.length = (kids.drop (ka.length + 1)).length := by
    rw [List.length_drop]
    omega
  have hk := g.kids
  rw [hkids] at hk
  refine ⟨ka, kb, _, kids[ka.length], _, by simp, ?_, hla, hlb, hi', ha, hb, PT.cellsL_around hk hla ha hb⟩
  rwa [List.append_assoc, List.singleton_append]

/-- The parent stays as it is when the pages of its children do. -/
theorem Good.keep_parent {s s' : Store ν} {lo hi : Option Int} {p : Nat} {keys : List Int} {kids kids' : List (PT h)}
    (g : Good strict s lo hi [] [PT.branch p keys kids]) (g' : Good strict s' lo hi keys kids') (hs : Steps s s' kids kids')
    (hpages : kids'.map PT.page = kids.map PT.page) :
    Good strict s' lo hi [] [PT.branch p keys kids'] ∧ Steps s s' [PT.branch p keys kids] [PT.branch p keys kids'] := by
  obtain ⟨-, hnode, hp, hp0, hlt⟩ := g.of_branch
  constructor
  · refine g'.branch (fun hp' => ?_) ?_ ⟨hp0, hlt.trans_le hs.numPages⟩
    · exact (hs.pages p hp').elim hp fun h => absurd hlt (not_lt.2 h)
    · rw [hs.frame p hlt hp, hnode, hpages]
  · refine hs.branch (by simp [PT.leavesL]) (fun q hq => ?_) (fun _ _ _ => rfl) le_rfl
    simp only [PT.pagesL, List.flatMap_cons, List.flatMap_nil, List.append_nil, PT.pages_branch, List.mem_cons] at hq
    exact hq.imp_right .inl

/-- The parent is written with its new separators and children. -/
theorem Good.write_parent {s s' : Store ν} {lo hi : Option Int} {p : Nat} {keys keys' : List Int} {kids kids' : List (PT h)}
    (g : Good strict s lo hi [] [PT.branch p keys kids]) (g' : Good strict s' lo hi keys' kids') (hs : Steps s s' kids kids') :
    Good strict (s'.set p (.internal keys' (kids'.map PT.page))) lo hi [] [PT.branch p keys' kids'] ∧
      Steps s (s'.set p (.internal keys' (kids'.map PT.page))) [PT.branch p keys kids] [PT.branch p keys' kids'] := by
  obtain ⟨-, -, hp, hp0, hlt⟩ := g.of_branch
  have hp' : p ∉ PT.pagesL kids' := fun hp' => (hs.pages p hp').elim hp fun h => absurd hlt (not_lt.2 h)
  have hlt' := hlt.trans_le hs.numPages
  refine ⟨Good.branch (g'.of_agree (fun q hq => Store.nodes_set_other (ne_of_mem_of_not_mem hq hp')) (le_max_left _ _)) hp'
    (by simp [Node.reread]) ⟨hp0, hlt'.trans_le (le_max_left _ _)⟩, ?_⟩
  refine hs.branch (by simp [PT.leavesL]) (fun q hq => ?_) (fun q _ hq => Store.nodes_set_other hq) (le_max_left _ _)
  simp only [PT.pagesL, List.flatMap_cons, List.flatMap_nil, List.append_nil, PT.pages_branch, List.mem_cons] at hq
  exact hq.imp_right .inl

theorem PT.leavesL_cut (p q n : Nat) (kl kr : List Int) (kids : List (PT h)) :
    PT.leavesL [PT.branch p kl (kids.take n), PT.branch q kr (kids.drop n)] = PT.leavesL kids := by
  simp only [PT.leavesL, List.flatMap_cons, List.flatMap_nil, List.append_nil, PT.leaves_branch]
  rw [← List.flatMap_append, List.take_append_drop]

/-- A list of stored trees as the children of two nodes, with the separator between them. -/
theorem Good.cut {s t : Store ν} {lo hi : Option Int} {p q mid : Nat} {k : Int} {kl kr : List Int} {kids : List (PT h)}
    (g : Good strict s lo hi (kl ++ k :: kr) kids) (hmid : kl.length = mid) (hp : p ∉ PT.pagesL kids)
    (hq : q ∉ PT.pagesL kids) (hpq : p ≠ q)
    (hl : t.nodes p = .ok (.internal kl ((kids.take (mid + 1)).map PT.page)))
    (hr : t.nodes q = .ok (.internal kr ((kids.drop (mid + 1)).map PT.page)))
    (hother : ∀ m ∈ PT.pagesL kids, t.nodes m = s.nodes m) (hle : s.numPages ≤ t.numPages)
    (hpr : 0 < p ∧ p < t.numPages) (hqr : 0 < q ∧ q < t.numPages) :
    Good strict t lo hi [k] [PT.branch p kl (kids.take (mid + 1)), PT.branch q kr (kids.drop (mid + 1))] := by
  subst hmid
  obtain ⟨g1, g2, hdisj, hnext⟩ := g.split
  have hcut := List.take_append_drop (kl.length + 1) kids
  generalize kids.take (kl.length + 1) = ca at *
  generalize kids.drop (kl.length + 1) = cb at *
  subst hcut
  simp only [PT.pagesL, List.flatMap_append, List.mem_append, not_or] at hp hq hother
  refine Good.append (u := []) (v := []) (Good.branch (g1.of_agree (fun m hm => hother m (.inl hm)) hle) hp.1 hl hpr)
    (Good.branch (g2.of_agree (fun m hm => hother m (.inr hm)) hle) hq.2 hr hqr) ?_ (by simpa [PT.leavesL] using hnext)
  simp only [PT.pagesL, List.flatMap_cons, List.flatMap_nil, List.append_nil, PT.pages_branch, List.mem_cons, not_or]
  rintro m (rfl | hm)
  · exact ⟨hpq, hp.2⟩
  · exact ⟨ne_of_mem_of_not_mem hm hq.1, hdisj m hm⟩

/-- The parent is written as two nodes. -/
theorem Good.split_parent {s s' t : Store ν} {lo hi : Option Int} {p mid : Nat} {k : Int} {keys kl kr : List Int}
    {kids kids' : List (PT h)} (g : Good strict s lo hi [] [PT.branch p keys kids])
    (g' : Good strict s' lo hi (kl ++ k :: kr) kids') (hs : Steps s s' kids kids') (hmid : kl.length = mid)
    (hl : t.nodes p = .ok (.internal kl ((kids'.take (mid + 1)).map PT.page)))
    (hr : t.nodes s'.numPages = .ok (.internal kr ((kids'.drop (mid + 1)).map PT.page)))
    (hother : ∀ m, m ≠ p → m ≠ s'.numPages → t.nodes m = s'.nodes m) (hn : t.numPages = s'.numPages + 1) :
    Good strict t lo hi [k] [PT.branch p kl (kids'.take (mid + 1)), PT.branch s'.numPages kr (kids'.drop (mid + 1))] ∧
      Steps s t [PT.branch p keys kids]
        [PT.branch p kl (kids'.take (mid + 1)), PT.branch s'.numPages kr (kids'.drop (mid + 1))] := by
  obtain ⟨-, -, hp, hp0, hlt⟩ := g.of_branch
  have hp' : p ∉ PT.pagesL kids' := fun hp' => (hs.pages p hp').elim hp fun h => absurd hlt (not_lt.2 h)
  have hlt' := hlt.trans_le hs.numPages
  have hq' : s'.numPages ∉ PT.pagesL kids' := fun hq => lt_irrefl _ (g'.range _ hq).2
  have hle : s'.numPages ≤ t.numPages := by omega
  refine ⟨g'.cut hmid hp' hq' hlt'.ne hl hr
    (fun m hm => hother m (ne_of_mem_of_not_mem hm hp') (ne_of_mem_of_not_mem hm hq')) hle ⟨hp0, by omega⟩
    ⟨hp0.trans hlt', by omega⟩, ?_⟩
  refine hs.branch (PT.leavesL_cut _ _ _ _ _ _) (fun q hq => ?_)
    (fun q hqlt hq => hother q hq (hqlt.trans_le hs.numPages).ne) hle
  have hcut := List.take_append_drop (mid + 1) kids'
  generalize kids'.take (mid + 1) = ca at *
  generalize kids'.drop (mid + 1) = cb at *
  subst hcut
  simp only [PT.pagesL, List.flatMap_cons, List.flatMap_nil, List.append_nil, PT.pages_branch, List.mem_cons,
    List.mem_append, List.flatMap_append] at hq ⊢
  rcases hq with (rfl | hq) | rfl | hq
  · exact .inl rfl
  · exact .inr (.inl (.inl hq))
  · exact .inr (.inr hs.numPages)
  · exact .inr (.inl (.inr hq))

/-- Leaves decide about the cells. -/
theorem PT.cellsL_congr {h h' : Nat} {ds : List (PT h)} {ds' : List (PT h')} (hl : PT.leavesL ds = PT.leavesL ds') :
    PT.cellsL ds = PT.cellsL ds' := by
  rw [PT.cellsL, PT.cellsL, hl]

theorem PT.full_congr {h h' : Nat} {ds : List (PT h)} {ds' : List (PT h')} (hl : PT.leavesL ds = PT.leavesL ds') :
    PT.Full ds ↔ PT.Full ds' := by
  rw [PT.Full, PT.Full, hl]

section Node

variable {s s' s'' : Store ν} {lo hi : Option Int} {key : Int} {value : Bytes} {p : Nat} {keys ka kb ms' : List Int}
  {kids ca cb ds' : List (PT h)} {c : PT h} {r : Option (Int × Nat)}

/-- The cells and the fullness of a list of children follow from those of the child that changed. -/
theorem Inserted.around {ts : List (PT (h + 1))} {r' : Option (Int × Nat)} (hkids : kids = ca ++ [c] ++ cb)
    (hins : Inserted strict s lo' hi' key value c r s' ds') (hfree : ∀ v, (key, v) ∉ PT.cellsL kids)
    (hts : PT.leavesL ts = PT.leavesL (ca ++ ds' ++ cb)) (hpages : ts.map PT.page = p :: r'.toList.map Prod.snd)
    (hgood : Good strict s'' lo hi (r'.toList.map Prod.fst) ts) (hsteps : Steps s s'' [PT.branch p keys kids] ts)
    (hst : s''.stale = []) : Inserted strict s lo hi key value (PT.branch p keys kids) r' s'' ts := by
  refine ⟨hpages, hgood, hsteps, hst, fun d => ?_, fun hf => ?_, ?_⟩
  · rw [PT.cellsL_congr hts, PT.cellsL_branch, hkids]
    simp only [PT.cellsL_append, List.mem_append]
    have := hins.cells d
    tauto
  · rw [PT.full_congr hts]
    have hf : PT.Full kids := by simpa [PT.Full, PT.leavesL] using hf
    rw [hkids, PT.full_append, PT.full_append] at hf
    rw [PT.full_append, PT.full_append]
    exact ⟨⟨hf.1.1, hins.full (.inr hf.1.2)⟩, hf.2⟩
  · simpa using hfree

end Node

theorem does_insertRec : {h : Nat} → {s : Store ν} → {lo hi : Option Int} → {key : Int} → {value : Bytes} → {t : PT h} →
    Good strict s lo hi [] [t] → s.stale = [] → InRange lo hi key → {fuel : Nat} → h < fuel →
    Does (BTree.insertRec fuel t.page key value) s
      (fun r s' => ∃ ds, Inserted strict s lo hi key value t r s' ds ∧
        Puts t key value s.numPages ((r.toList.map Prod.fst, ds), s'.numPages))
      fun e s' => InsertError s key t e s' ∧ Refuses t key value s.numPages
  | 0, s, lo, hi, key, value, t, g, hst, hin, fuel, hf => by
    obtain ⟨p, cells, l, rfl⟩ := PT.exists_leaf t
    obtain ⟨fuel, rfl⟩ := Nat.exists_eq_add_of_lt hf
    rw [Nat.zero_add]
    exact does_insertLeaf g hst hin
  | h + 1, s, lo, hi, key, value, t, g, hst, hin, fuel, hf => by
    obtain ⟨p, keys, kids, rfl⟩ := PT.exists_branch t
    obtain ⟨fuel, rfl⟩ : ∃ f, fuel = f + 1 := ⟨fuel - 1, by omega⟩
    obtain ⟨gk, hs, hp, hrange⟩ := g.of_branch
    obtain ⟨ka, kb, ca, c, cb, hkeys, hkids, hla, hlb, hbis, hka, hkb, hca, hcb⟩ := gk.child key
    have hc : (kids.map PT.page)[ka.length]? = some c.page := by simp [hkids, hla]
    rw [PT.page_branch, BTree.insertRec, does_bind, does_load hst hrange hs]
    simp only
    rw [hbis, does_bind, does_at hc, does_bind]
    have gk' := gk
    rw [hkeys, hkids] at gk'
    obtain ⟨gc, hplug⟩ := gk'.segment hla hlb
    have hplace : kids[bisectRight keys key]? = some c := by simp [hkids, hbis, hla]
    have hchild : Insertable (PT.branch p keys kids) key value → Insertable c key value :=
      fun ⟨hl, hk, hv⟩ => ⟨hl.legalKids.1.legal c (List.mem_of_getElem? hplace), hk, hv⟩
    -- the node as a value
    have hput : PT.put key value (PT.branch p keys kids) s.numPages = (do
        let r ← PT.put key value c s.numPages
        if r.1.1 = [] then return (([], [PT.branch p (ka ++ r.1.1 ++ kb) (ca ++ r.1.2 ++ cb)]), r.2)
        else PT.putBranch p (ka ++ r.1.1 ++ kb) (ca ++ r.1.2 ++ cb) r.2) := by
      have h1 : keys.take ka.length = ka := by simp [hkeys]
      have h2 : keys.drop ka.length = kb := by simp [hkeys]
      have h3 : kids.take ka.length = ca := by simp [hkids, hla]
      have h4 : kids.drop (ka.length + 1) = cb := by simp [hkids, hla]
      rw [PT.put_branch hplace]
      simp only [hbis, h1, h2, h3, h4]
    refine (does_insertRec gc hst (hin.between hka hkb) (by omega)).mono ?_ ?_
    · rintro r s' ⟨ds, hins, hputs⟩
      obtain ⟨hgood, hsteps⟩ := hplug _ _ _ hins.good hins.steps
      rw [← hkids] at hsteps
      have hfree : ∀ v, (key, v) ∉ PT.cellsL kids := by
        intro v
        rw [hkids]
        simp only [PT.cellsL_append, List.mem_append, not_or]
        exact ⟨⟨fun h => lt_irrefl _ (hca _ h), hins.fresh v⟩, fun h => lt_irrefl _ (hcb _ h)⟩
      have hpages := hins.pages
      rcases r with _ | ⟨sep, right⟩
      · -- the child was not split
        obtain ⟨c', rfl, hc'⟩ : ∃ c', ds = [c'] ∧ c'.page = c.page := by
          simpa [List.map_eq_singleton_iff] using hpages
        simp only [Option.toList_none, List.map_nil] at hgood hputs
        rw [← hkeys] at hgood
        obtain ⟨hgood', hsteps'⟩ := g.keep_parent hgood hsteps (by simp [hkids, hc'])
        refine ⟨_, hins.around hkids hfree (by simp [PT.leavesL]) rfl hgood' hsteps' hins.stale, fun hi => ?_⟩
        obtain ⟨hp', hl'⟩ := hputs (hchild hi)
        obtain ⟨hk, hlen⟩ := hi.legal.legalKids
        have hk' := hk.set hplace (hl' c' (by simp)) hc'
        have hset : kids.set (bisectRight keys key) c' = ca ++ [c'] ++ cb := by
          rw [hkids, hbis, hla, List.append_assoc, List.singleton_append, List.set_append_right _ _ le_rfl, Nat.sub_self]
          simp
        rw [hset] at hk'
        refine ⟨?_, fun d hd => List.mem_singleton.1 hd ▸ hk'.branch hlen⟩
        rw [hput, hp', hkeys]
        rfl
      · -- the parent takes a separator and a child
        obtain ⟨c₁, c₂, rfl, hc₁, hc₂⟩ : ∃ c₁ c₂, ds = [c₁, c₂] ∧ c₁.page = c.page ∧ c₂.page = right := by
          rcases ds with _ | ⟨c₁, _ | ⟨c₂, _ | ⟨_, _⟩⟩⟩ <;> simp_all
        have hkeys' : keys.insertIdx ka.length sep = ka ++ [sep] ++ kb := by
          rw [hkeys]
          simp [insertIdx_append]
        have hkids' : (kids.map PT.page).insertIdx (ka.length + 1) right = (ca ++ [c₁, c₂] ++ cb).map PT.page := by
          have := insertIdx_append ((ca ++ [c]).map PT.page) (cb.map PT.page) right
          rw [List.length_map, List.length_append, List.length_singleton, ← hla] at this
          rw [hkids, List.map_append, this]
          simp [hc₁, hc₂]
        simp only [Option.toList_some, List.map_cons, List.map_nil] at hgood hputs
        have hlen' : (ca ++ [c₁, c₂] ++ cb).length = (ka ++ [sep] ++ kb).length + 1 := hgood.kids.length_eq
        -- what is known of the parent when the operation is legal
        have hparent : Insertable (PT.branch p keys kids) key value →
            PT.put key value (PT.branch p keys kids) s.numPages =
              PT.putBranch p (ka ++ [sep] ++ kb) (ca ++ [c₁, c₂] ++ cb) s'.numPages ∧
            (∀ u ∈ ka ++ [sep] ++ kb, IsI64 u) ∧ (∀ d ∈ ca ++ [c₁, c₂] ++ cb, d.Legal) ∧ (ka ++ [sep] ++ kb).length ≤ 341 := by
          intro hi
          obtain ⟨hp', hl'⟩ := hputs (hchild hi)
          obtain ⟨hk, hlenk⟩ := hi.legal.legalKids
          refine ⟨?_, fun u hu => ?_, fun d hd => ?_, ?_⟩
          · rw [hput, hp']
            rfl
          · simp only [List.mem_append, List.mem_singleton] at hu
            rcases hu with (hu | rfl) | hu
            · exact hk.keys u (by simp [hkeys, hu])
            · exact PT.put_seps (hchild hi).legal hi.key hp' u (by simp)
            · exact hk.keys u (by simp [hkeys, hu])
          · simp only [List.mem_append] at hd
            rcases hd with (hd | hd) | hd
            · exact hk.legal d (by simp [hkids, hd])
            · exact hl' d hd
            · exact hk.legal d (by simp [hkids, hd])
          · rw [hkeys] at hlenk
            simp only [List.length_append, List.length_singleton, List.length_nil] at hlenk ⊢
            omega
        simp only
        rw [hkeys', hkids']
        generalize ka ++ [sep] ++ kb = keys' at hgood hlen' hparent ⊢
        generalize hds : ca ++ [c₁, c₂] ++ cb = kids' at hgood hsteps hlen' hparent ⊢
        have hsize : Insertable (PT.branch p keys kids) key value → (PT.branch p keys' kids').size < 2 ^ 32 := by
          intro hi
          obtain ⟨-, -, -, hle⟩ := hparent hi
          rw [PT.size_branch]
          omega
        refine does_putOrSplit (fun e t he => ⟨.of_abort (serializedSize_error he), fun hi gr hg hleg => ?_⟩)
          (fun hf size hsz hle => ?_) fun size hsz hgt => ?_
        · -- a page number too large
          obtain ⟨hp', hku, -, -⟩ := hparent hi
          rw [hp'] at hg
          have hpacks : (PT.branch p keys' kids').Packs := ⟨hku, fun d hd => (PT.putBranch_kids hg hleg d hd).2⟩
          cases (PT.Packs.serializedSize (ν := ν) hpacks (hsize hi)).symm.trans he
        · obtain ⟨hgood', hsteps'⟩ := g.write_parent hgood hsteps
          refine ⟨_, hins.around hkids hfree (by simp [PT.leavesL, ← hds]) rfl hgood' hsteps' (by simp [Store.set, hins.stale]),
            fun hi => ?_⟩
          obtain ⟨hp', hku, hkl, -⟩ := hparent hi
          have hfits : (PT.branch p keys' kids').Fits := PT.fits_of_branch hf
          refine ⟨?_, fun d hd => ?_⟩
          · have hle' : 9 + 8 * keys'.length + 4 * kids'.length ≤ pageSize := hfits.2
            rw [hp', PT.putBranch, if_pos hle', Store.numPages_set (hrange.2.trans_le hsteps.numPages)]
            rfl
          · rw [List.mem_singleton.1 hd]
            exact ⟨hfits, hlen', hkl⟩
        · rw [BTree.splitInternal, ← List.map_take, ← List.map_drop]
          have hbig : (PT.branch p keys' kids').Packs → Insertable (PT.branch p keys kids) key value →
              ¬9 + 8 * keys'.length + 4 * kids'.length ≤ pageSize := by
            intro hpk hi
            obtain rfl : size = (PT.branch p keys' kids').size :=
              Except.ok.inj (hsz.symm.trans (PT.Packs.serializedSize hpk (hsize hi)))
            exact not_le.2 hgt
          -- when the halves fit, both are written
          have hfits : Insertable (PT.branch p keys kids) key value → ∀ gr,
              PT.put key value (PT.branch p keys kids) s.numPages = .ok gr → (∀ d ∈ gr.1.2, d.Legal) →
              (PT.branch p (keys'.take (keys'.length / 2)) (kids'.take (keys'.length / 2 + 1))).Fits ∧
                (PT.branch s'.numPages (keys'.drop (keys'.length / 2 + 1)) (kids'.drop (keys'.length / 2 + 1))).Fits ∧
                keys'.length / 2 ≠ 0 := by
            intro hi gr hg hleg
            obtain ⟨hp', hku, -, -⟩ := hparent hi
            rw [hp'] at hg
            have hbig' := hbig ⟨hku, fun d hd => (PT.putBranch_kids hg hleg d hd).2⟩ hi
            rcases PT.putBranch_eq_ok hg with ⟨hle, -⟩ | ⟨sep', -, -, rfl⟩
            · exact absurd hle hbig'
            · rw [pageSize] at hbig'
              exact ⟨(hleg _ (by simp)).fits, (hleg _ (by simp)).fits, by omega⟩
          split
          · rename_i hmid
            exact ⟨InsertError.of_abort ⟨by simp, by simp⟩, fun hi gr hg hleg => (hfits hi gr hg hleg).2.2 hmid⟩
          rename_i hmid0
          have hlt : keys'.length / 2 < keys'.length := Nat.div_lt_self (by omega) (by omega)
          rw [does_bind, does_at (List.getElem?_eq_getElem hlt), does_bind, does_allocate, does_bind]
          refine does_write_of (fun hfr => ?_) fun e he => ⟨.of_abort (fits_error he), fun hi gr hg hleg => ?_⟩
          swap
          · cases (PT.Fits.node_fits (ν := ν) (hfits hi gr hg hleg).2.1).symm.trans he
          rw [does_bind]
          refine does_write_of (fun hfl => ?_) fun e he => ⟨.of_abort (fits_error he), fun hi gr hg hleg => ?_⟩
          swap
          · cases (PT.Fits.node_fits (ν := ν) (hfits hi gr hg hleg).1).symm.trans he
          have hcut : keys' = keys'.take (keys'.length / 2) ++ keys'[keys'.length / 2] :: keys'.drop (keys'.length / 2 + 1) := by
            rw [List.getElem_cons_drop, List.take_append_drop]
          have hmid : (keys'.take (keys'.length / 2)).length = keys'.length / 2 := by
            rw [List.length_take, min_eq_left hlt.le]
          obtain ⟨hn1, hn2, hn3, hn4, hn5⟩ := @nodes_split ν _ { s' with stale := p :: s'.stale } p
            (.internal (keys'.take (keys'.length / 2)) ((kids'.take (keys'.length / 2 + 1)).map PT.page))
            (.internal (keys'.drop (keys'.length / 2 + 1)) ((kids'.drop (keys'.length / 2 + 1)).map PT.page))
            (by simp [hins.stale]) (hrange.2.trans_le hsteps.numPages)
          rw [hcut] at hgood
          obtain ⟨hgood', hsteps'⟩ := g.split_parent hgood hsteps hmid hn1 hn2 hn3 hn4
          refine ⟨_, hins.around hkids hfree ((PT.leavesL_cut _ _ _ _ _ _).trans (by rw [hds])) rfl hgood' hsteps' hn5,
            fun hi => ?_⟩
          obtain ⟨hp', hku, hkl, -⟩ := hparent hi
          have hl1 := (PT.fits_of_branch (ν := ν) (p := p) hfl)
          have hl2 := (PT.fits_of_branch (ν := ν) (p := s'.numPages) hfr)
          have hpages : ∀ d ∈ kids', d.page < 2 ^ 32 := by
            intro d hd
            rw [← List.take_append_drop (keys'.length / 2 + 1) kids', List.mem_append] at hd
            exact hd.elim (hl1.1.2 d) (hl2.1.2 d)
          have hbig' := hbig ⟨hku, hpages⟩ hi
          refine ⟨?_, ?_⟩
          · rw [hp', PT.putBranch, if_neg hbig', hn4]
            simp only [hmid0, if_false, List.getElem?_eq_getElem hlt]
            rfl
          · simp only [List.mem_cons, List.not_mem_nil, or_false, forall_eq_or_imp, forall_eq]
            refine ⟨⟨hl1, ?_, fun d hd => hkl d (List.mem_of_mem_take hd)⟩, hl2, ?_, fun d hd => hkl d (List.mem_of_mem_drop hd)⟩
            · change (kids'.take _).length = (keys'.take _).length + 1
              rw [List.length_take, List.length_take]
              omega
            · change (kids'.drop _).length = (keys'.drop _).length + 1
              rw [List.length_drop, List.length_drop]
              omega
    · rintro e s' ⟨⟨he, hdiv, hdup⟩, href⟩
      refine ⟨⟨he, hdiv, fun k hk => ?_⟩, fun hi gr hg hleg => ?_⟩
      · obtain ⟨rfl, rfl, v, hv⟩ := hdup k hk
        refine ⟨rfl, rfl, v, ?_⟩
        rw [PT.cellsL_branch, hkids]
        simp only [PT.cellsL_append, List.mem_append]
        exact .inl (.inr hv)
      · rw [hput] at hg
        obtain ⟨r, hr, hg⟩ := bind_eq_ok.1 hg
        refine href (hchild hi) r hr fun d hd => ?_
        have hmem : d ∈ ca ++ r.1.2 ++ cb := by simp [hd]
        split at hg
        · obtain rfl := Except.ok.inj hg
          exact (hleg _ (List.mem_singleton.2 rfl)).legalKids.1.legal d hmem
        · exact (PT.putBranch_kids hg hleg d hmem).1

end LeafDb
