import LeafDb.TreeProg

/-!
# The shape of a tree

`PT h` is a tree of height `h` with the page of each node, so every leaf is at the same depth by type.
`Good s lo hi ms ds` says that the trees `ds`, separated by `ms`, are stored in `s`, on pages of their own,
with keys in range and their leaves chained. Whether separators ascend strictly is a parameter: when two
are equal there is nothing but empty leaves between them. `Good.segment` replaces a segment of such a list
by what an operation made of it (`Steps`).
-/

namespace LeafDb

/-! ### Separated lists -/

/-- `a < b`, or `a ≤ b` when the order need not be strict. -/
def Below (strict : Prop) (a b : Int) : Prop := a ≤ b ∧ (strict → a < b)

namespace Below

variable {strict : Prop} {a b c : Int}

theorem of_lt (h : a < b) : Below strict a b := ⟨h.le, fun _ => h⟩

theorem trans (h : Below strict a b) (h' : Below strict b c) : Below strict a c :=
  ⟨h.1.trans h'.1, fun hs => (h.2 hs).trans (h'.2 hs)⟩

end Below

/-- `cs` with the separators `ks` between its elements; `R lo hi c` bounds the element between two. -/
inductive Kids {α : Type} (strict : Prop) (R : Option Int → Option Int → α → Prop) :
    Option Int → Option Int → List Int → List α → Prop
  | one {lo hi : Option Int} {c : α} : R lo hi c → (∀ a ∈ lo, ∀ b ∈ hi, Below strict a b) → Kids strict R lo hi [] [c]
  | cons {lo hi : Option Int} {k : Int} {c : α} {ks : List Int} {cs : List α} :
    R lo (some k) c → (∀ a ∈ lo, Below strict a k) → Kids strict R (some k) hi ks cs →
      Kids strict R lo hi (k :: ks) (c :: cs)

namespace Kids

variable {α : Type} {strict : Prop} {R : Option Int → Option Int → α → Prop} {lo hi : Option Int} {k : Int} {ks ks' : List Int}
  {cs cs' : List α}

theorem length_eq (h : Kids strict R lo hi ks cs) : cs.length = ks.length + 1 := by
  induction h with
  | one => rfl
  | cons _ _ _ ih => simp [ih]

theorem bounds (h : Kids strict R lo hi ks cs) : ∀ a ∈ lo, ∀ b ∈ hi, Below strict a b := by
  induction h with
  | one _ h => exact h
  | cons _ hk _ ih => exact fun a ha b hb => (hk a ha).trans (ih _ rfl b hb)

theorem lo_below (h : Kids strict R lo hi ks cs) : ∀ a ∈ lo, ∀ k ∈ ks, Below strict a k := by
  induction h with
  | one => simp
  | cons _ hk _ ih =>
    intro a ha k' hk'
    rcases List.mem_cons.1 hk' with rfl | hk'
    · exact hk a ha
    · exact (hk a ha).trans (ih _ rfl k' hk')

/-- Separators ascend. -/
theorem pairwise (h : Kids strict R lo hi ks cs) : ks.Pairwise (Below strict) := by
  induction h with
  | one => exact .nil
  | cons _ _ h ih => exact .cons (fun k' hk' => h.lo_below _ rfl k' hk') ih

theorem append (h : Kids strict R lo (some k) ks cs) (h' : Kids strict R (some k) hi ks' cs') :
    Kids strict R lo hi (ks ++ k :: ks') (cs ++ cs') := by
  generalize hk : some k = hi' at h
  induction h with
  | one hr hle =>
    subst hk
    exact .cons hr (fun a ha => hle a ha k rfl) h'
  | cons hr hle _ ih => exact .cons hr hle (ih hk)

theorem split (h : Kids strict R lo hi (ks ++ k :: ks') cs) :
    Kids strict R lo (some k) ks (cs.take (ks.length + 1)) ∧ Kids strict R (some k) hi ks' (cs.drop (ks.length + 1)) := by
  induction ks generalizing lo cs with
  | nil =>
    obtain ⟨⟩ | ⟨hr, hle, h⟩ := h
    exact ⟨.one hr fun a ha b hb => by cases hb; exact hle a ha, h⟩
  | cons k' ks ih =>
    obtain ⟨⟩ | ⟨hr, hle, h⟩ := h
    obtain ⟨h1, h2⟩ := ih h
    exact ⟨.cons hr hle h1, h2⟩

/-- A segment of a separated list, and its replacement by another with the same bounds. -/
theorem segment {ka ms kb : List Int} {ca ds cb : List α} (h : Kids strict R lo hi (ka ++ ms ++ kb) (ca ++ ds ++ cb))
    (ha : ka.length = ca.length) (hb : kb.length = cb.length) :
    Kids strict R (ka.getLast?.or lo) (kb.head?.or hi) ms ds ∧
      ∀ ms' ds', Kids strict R (ka.getLast?.or lo) (kb.head?.or hi) ms' ds' →
        Kids strict R lo hi (ka ++ ms' ++ kb) (ca ++ ds' ++ cb) := by
  -- the separators on the left of the segment go first
  obtain ⟨hleft, hplug⟩ : Kids strict R (ka.getLast?.or lo) hi (ms ++ kb) (ds ++ cb) ∧
      ∀ ks cs, Kids strict R (ka.getLast?.or lo) hi ks cs → Kids strict R lo hi (ka ++ ks) (ca ++ cs) := by
    rcases List.eq_nil_or_concat ka with rfl | ⟨ka, k, rfl⟩
    · obtain rfl := List.length_eq_zero_iff.1 ha.symm
      exact ⟨h, fun _ _ h => h⟩
    · rw [List.concat_eq_append] at h ha ⊢
      rw [List.append_assoc, List.append_assoc, List.singleton_append, List.append_assoc] at h
      rw [List.getLast?_append, List.getLast?_singleton, Option.some_or, Option.some_or]
      have hlen : ka.length + 1 = ca.length := by simpa using ha
      obtain ⟨h1, h2⟩ := h.split
      rw [hlen, List.take_left] at h1
      rw [hlen, List.drop_left] at h2
      refine ⟨h2, fun ks cs h => ?_⟩
      rw [List.append_assoc]
      exact h1.append h
  have hlen := hleft.length_eq
  rw [List.length_append, List.length_append, hb] at hlen
  rcases kb with _ | ⟨k, kb⟩
  · obtain rfl := List.length_eq_zero_iff.1 hb.symm
    refine ⟨by simpa using hleft, fun ms' ds' h => ?_⟩
    simpa using hplug _ _ h
  · obtain ⟨h1, h2⟩ := hleft.split
    have hds : ms.length + 1 = ds.length := by omega
    rw [hds, List.take_left] at h1
    rw [hds, List.drop_left] at h2
    refine ⟨h1, fun ms' ds' h => ?_⟩
    rw [List.append_assoc, List.append_assoc]
    exact hplug _ _ (h.append h2)

theorem head (h : Kids strict R lo hi ks cs) : ∃ c cs' hi', cs = c :: cs' ∧ R lo hi' c := by
  rcases h with ⟨hr, -⟩ | ⟨hr, -, -⟩ <;> exact ⟨_, _, _, rfl, hr⟩

theorem mono {R' : Option Int → Option Int → α → Prop} (h : Kids strict R lo hi ks cs)
    (hR : ∀ lo hi, ∀ c ∈ cs, R lo hi c → R' lo hi c) : Kids strict R' lo hi ks cs := by
  induction h with
  | one hr hle => exact .one (hR _ _ _ (by simp) hr) hle
  | cons hr hle _ ih => exact .cons (hR _ _ _ (by simp) hr) hle (ih fun lo hi c hc => hR lo hi c (by simp [hc]))

end Kids

/-! ### Trees with their pages -/

structure PLeaf where
  page : Nat
  cells : List Cell
  /-- The number in the link field. -/
  link : Nat

structure PNode (α : Type) where
  page : Nat
  keys : List Int
  kids : List α

/-- A tree of height `h`. -/
def PT : Nat → Type
  | 0 => PLeaf
  | h + 1 => PNode (PT h)

/-- `lo ≤ x < hi`, where a missing bound is no bound. -/
def InRange (lo hi : Option Int) (x : Int) : Prop := (∀ a ∈ lo, a ≤ x) ∧ ∀ b ∈ hi, x < b

/-- The bounds between two lists of separators. -/
theorem InRange.between {lo hi : Option Int} {x : Int} {ka kb : List Int} (h : InRange lo hi x) (ha : ∀ a ∈ ka, a ≤ x)
    (hb : ∀ b ∈ kb, x < b) : InRange (ka.getLast?.or lo) (kb.head?.or hi) x := by
  constructor
  · intro a hm
    rcases Option.or_eq_some_iff.1 hm with hm | ⟨-, hm⟩
    · exact ha a (List.mem_of_getLast? hm)
    · exact h.1 a hm
  · intro b hm
    rcases Option.or_eq_some_iff.1 hm with hm | ⟨-, hm⟩
    · exact hb b (List.mem_of_head? hm)
    · exact h.2 b hm

namespace PT

variable {strict : Prop} {h : Nat} {ν : Type} [TreeLink ν]

def leaf (page : Nat) (cells : List Cell) (link : Nat) : PT 0 := PLeaf.mk page cells link

def branch (page : Nat) (keys : List Int) (kids : List (PT h)) : PT (h + 1) := PNode.mk page keys kids

theorem exists_leaf (t : PT 0) : ∃ p cells l, t = leaf p cells l := ⟨_, _, _, rfl⟩

theorem exists_branch (t : PT (h + 1)) : ∃ p keys kids, t = branch p keys kids := ⟨_, _, _, rfl⟩

def page : {h : Nat} → PT h → Nat
  | 0, t => PLeaf.page t
  | _ + 1, t => PNode.page t

def leaves : {h : Nat} → PT h → List PLeaf
  | 0, t => [t]
  | _ + 1, t => (PNode.kids t).flatMap leaves

def pages : {h : Nat} → PT h → List Nat
  | 0, t => [PLeaf.page t]
  | _ + 1, t => PNode.page t :: (PNode.kids t).flatMap pages

/-- The pages of a tree with the nodes on them. -/
def nodes : {h : Nat} → PT h → List (Nat × Node ν)
  | 0, t => [(PLeaf.page t, .leaf (PLeaf.cells t) (TreeLink.ofCode (PLeaf.link t)))]
  | _ + 1, t => (PNode.page t, .internal (PNode.keys t) ((PNode.kids t).map page)) :: (PNode.kids t).flatMap nodes

/-- Keys ascend in each leaf and lie between the separators around them. -/
def Bounded (strict : Prop) : {h : Nat} → Option Int → Option Int → PT h → Prop
  | 0, lo, hi, t => Ascending (PLeaf.cells t) ∧ ∀ c ∈ PLeaf.cells t, InRange lo hi c.1
  | _ + 1, lo, hi, t => Kids strict (Bounded strict) lo hi (PNode.keys t) (PNode.kids t)

section Simp

variable (p l : Nat) (cells : List Cell) (keys : List Int) (kids : List (PT h))

@[simp] theorem page_leaf : (leaf p cells l).page = p := rfl
@[simp] theorem page_branch : (branch p keys kids).page = p := rfl
@[simp] theorem leaves_leaf : (leaf p cells l).leaves = [⟨p, cells, l⟩] := rfl
@[simp] theorem leaves_branch : (branch p keys kids).leaves = kids.flatMap leaves := rfl
@[simp] theorem pages_leaf : (leaf p cells l).pages = [p] := rfl
@[simp] theorem pages_branch : (branch p keys kids).pages = p :: kids.flatMap pages := rfl
@[simp] theorem nodes_leaf : (leaf p cells l).nodes (ν := ν) = [(p, .leaf cells (TreeLink.ofCode l))] := rfl
@[simp] theorem nodes_branch :
    (branch p keys kids).nodes (ν := ν) = (p, .internal keys (kids.map page)) :: kids.flatMap nodes := rfl

end Simp

abbrev leavesL (ds : List (PT h)) : List PLeaf := ds.flatMap leaves
abbrev pagesL (ds : List (PT h)) : List Nat := ds.flatMap pages
abbrev nodesL (ds : List (PT h)) : List (Nat × Node ν) := ds.flatMap nodes

/-- The cells of the trees, in order. -/
def cellsL (ds : List (PT h)) : List Cell := (leavesL ds).flatMap PLeaf.cells

/-- No leaf is empty. -/
def Full (ds : List (PT h)) : Prop := ∀ l ∈ leavesL ds, l.cells ≠ []

@[simp] theorem cellsL_append (ds ds' : List (PT h)) : cellsL (ds ++ ds') = cellsL ds ++ cellsL ds' := by
  simp [cellsL]

theorem full_append {ds ds' : List (PT h)} : Full (ds ++ ds') ↔ Full ds ∧ Full ds' := by
  simp [Full, or_imp, forall_and]

theorem map_fst_nodes : {h : Nat} → (t : PT h) → (nodes (ν := ν) t).map Prod.fst = pages t
  | 0, _ => rfl
  | h + 1, t => by
    have hkids : ∀ ds : List (PT h), (ds.flatMap (nodes (ν := ν))).map Prod.fst = ds.flatMap pages := by
      intro ds
      rw [List.map_flatMap]
      exact List.flatMap_congr fun d _ => map_fst_nodes d
    rw [nodes, pages, List.map_cons, hkids]

theorem page_mem_pages : {h : Nat} → (t : PT h) → t.page ∈ t.pages
  | 0, t => by simp [page, pages]
  | _ + 1, t => by simp [page, pages]

theorem leaves_ne_nil : {h : Nat} → (t : PT h) → {lo hi : Option Int} → Bounded strict lo hi t → leaves t ≠ []
  | 0, t, _, _, _ => by simp [leaves]
  | _ + 1, t, lo, hi, hb => by
    obtain ⟨c, cs, hi', hk, hc⟩ := Kids.head hb
    rw [leaves, hk, List.flatMap_cons]
    exact fun he => leaves_ne_nil c hc (List.append_eq_nil_iff.1 he).1

@[simp] theorem cellsL_leaf (p l : Nat) (cells : List Cell) : cellsL [leaf p cells l] = cells := by
  simp [cellsL, leavesL]

@[simp] theorem cellsL_branch (p : Nat) (keys : List Int) (kids : List (PT h)) :
    cellsL [branch p keys kids] = cellsL kids := by
  simp [cellsL, leavesL]

theorem cells_inRange : {h : Nat} → {t : PT h} → {lo hi : Option Int} → Bounded strict lo hi t →
    ∀ c ∈ cellsL [t], InRange lo hi c.1
  | 0, t, lo, hi, hb => by
    obtain ⟨p, cells, l, rfl⟩ := exists_leaf t
    intro c hc
    rw [cellsL_leaf] at hc
    exact hb.2 c hc
  | h + 1, t, lo, hi, hb => by
    have hkids : ∀ {lo hi : Option Int} {ks : List Int} {cs : List (PT h)}, Kids strict (Bounded strict) lo hi ks cs →
        ∀ c ∈ cellsL cs, InRange lo hi c.1 := by
      intro lo hi ks cs hk
      induction hk with
      | one hr _ => exact cells_inRange hr
      | @cons lo hi k d ks cs hr hle hrest ih =>
        intro c hc
        rw [← List.singleton_append, cellsL_append, List.mem_append] at hc
        rcases hc with hc | hc
        · obtain ⟨h1, h2⟩ := cells_inRange hr c hc
          exact ⟨h1, fun b hb => (h2 k rfl).trans_le (hrest.bounds k rfl b hb).1⟩
        · obtain ⟨h1, h2⟩ := ih c hc
          exact ⟨fun a ha => (hle a ha).1.trans (h1 k rfl), h2⟩
    obtain ⟨p, keys, kids, rfl⟩ := exists_branch t
    intro c hc
    rw [cellsL_branch] at hc
    exact hkids hb c hc

theorem cellsL_inRange {lo hi : Option Int} {ks : List Int} {cs : List (PT h)} (hk : Kids strict (Bounded strict) lo hi ks cs) :
    ∀ c ∈ cellsL cs, InRange lo hi c.1 := by
  have := @cells_inRange strict (h + 1) (branch 0 ks cs) lo hi hk
  rwa [cellsL_branch] at this

/-- The cells of the children at the left and at the right of a place. -/
theorem cellsL_around {lo hi : Option Int} {ka kb : List Int} {ca cb : List (PT h)} {c : PT h} {x : Int}
    (hk : Kids strict (Bounded strict) lo hi (ka ++ kb) (ca ++ c :: cb)) (hla : ka.length = ca.length) (ha : ∀ k ∈ ka, k ≤ x)
    (hb : ∀ k ∈ kb, x < k) : (∀ d ∈ cellsL ca, d.1 < x) ∧ ∀ d ∈ cellsL cb, x < d.1 := by
  constructor
  · rcases List.eq_nil_or_concat ka with rfl | ⟨ka, k, rfl⟩
    · obtain rfl := List.length_eq_zero_iff.1 hla.symm
      simp [cellsL]
    · intro d hd
      rw [List.concat_eq_append] at hk hla ha
      have hlen : ka.length + 1 = ca.length := by simpa using hla
      rw [List.append_assoc, List.singleton_append] at hk
      have h1 := hk.split.1
      rw [hlen, List.take_left] at h1
      exact ((cellsL_inRange h1 d hd).2 k rfl).trans_le (ha k (by simp))
  · rcases kb with _ | ⟨k, kb⟩
    · have hlen := hk.length_eq
      simp only [List.length_append, List.length_cons, List.append_nil] at hlen
      obtain rfl := List.length_eq_zero_iff.1 (show cb.length = 0 by omega)
      simp [cellsL]
    · intro d hd
      have h2 := hk.split.2
      rw [hla, List.append_cons, List.drop_left' (by simp)] at h2
      exact (hb k (by simp)).trans_le ((cellsL_inRange h2 d hd).1 k rfl)

end PT

/-! ### Trees in a store -/

variable {strict : Prop} {h : Nat} {ν : Type} [TreeLink ν]

/-- Neighbouring leaves: the link field of the first one holds the page of the second. -/
def Next (a b : PLeaf) : Prop := a.link = b.page

structure Good (strict : Prop) (s : Store ν) (lo hi : Option Int) (ms : List Int) (ds : List (PT h)) : Prop where
  kids : Kids strict (PT.Bounded strict) lo hi ms ds
  stored : ∀ x ∈ PT.nodesL ds, s.nodes x.1 = .ok x.2
  nodup : (PT.pagesL ds).Nodup
  range : ∀ p ∈ PT.pagesL ds, 0 < p ∧ p < s.numPages
  chain : (PT.leavesL ds).IsChain Next

/-- What an operation on the trees `ds`, which leaves `ds'`, does to the rest of the store and to the
ends of the chain. -/
structure Steps (s s' : Store ν) (ds ds' : List (PT h)) : Prop where
  pages : ∀ p ∈ PT.pagesL ds', p ∈ PT.pagesL ds ∨ s.numPages ≤ p
  frame : ∀ p, p < s.numPages → p ∉ PT.pagesL ds → s'.nodes p = s.nodes p
  numPages : s.numPages ≤ s'.numPages
  first : (PT.leavesL ds').head?.map PLeaf.page = (PT.leavesL ds).head?.map PLeaf.page
  last : (PT.leavesL ds').getLast?.map PLeaf.link = (PT.leavesL ds).getLast?.map PLeaf.link

omit [TreeLink ν] in
theorem Steps.refl (s : Store ν) (ds : List (PT h)) : Steps s s ds ds :=
  ⟨fun _ => .inl, fun _ _ _ => rfl, le_rfl, rfl, rfl⟩

omit [TreeLink ν] in
theorem Steps.trans {s s' s'' : Store ν} {ds ds' ds'' : List (PT h)} (h : Steps s s' ds ds') (h' : Steps s' s'' ds' ds'') :
    Steps s s'' ds ds'' where
  pages p hp := by
    rcases h'.pages p hp with hp | hp
    · exact h.pages p hp
    · exact .inr (h.numPages.trans hp)
  frame p hlt hp := by
    have hp' : p ∉ PT.pagesL ds' := fun hp' => by
      rcases h.pages p hp' with hp' | hp'
      · exact hp hp'
      · exact absurd hlt (not_lt.2 hp')
    rw [h'.frame p (hlt.trans_le h.numPages) hp', h.frame p hlt hp]
  numPages := h.numPages.trans h'.numPages
  first := h'.first.trans h.first
  last := h'.last.trans h.last

/-- Whether two leaves are neighbours depends on the link of the first and the page of the second. -/
theorem next_of_eq {a a' b b' : PLeaf} (h : Next a b) (ha : a'.link = a.link) (hb : b'.page = b.page) : Next a' b' := by
  rw [Next, ha, hb]
  exact h

theorem mem_pages_of_nodes {ds : List (PT h)} {x : Nat × Node ν} (hx : x ∈ PT.nodesL ds) : x.1 ∈ PT.pagesL ds := by
  obtain ⟨d, hd, hx⟩ := List.mem_flatMap.1 hx
  exact List.mem_flatMap.2 ⟨d, hd, PT.map_fst_nodes (ν := ν) d ▸ List.mem_map_of_mem hx⟩

/-- A chain keeps its neighbours when a segment is replaced by one with the same ends. -/
theorem isChain_replace {as ls ls' bs : List PLeaf} (hc : (as ++ ls ++ bs).IsChain Next) (hc' : ls'.IsChain Next)
    (hf : ls'.head?.map PLeaf.page = ls.head?.map PLeaf.page)
    (hl : ls'.getLast?.map PLeaf.link = ls.getLast?.map PLeaf.link) : (as ++ ls' ++ bs).IsChain Next := by
  rcases ls with _ | ⟨l, ls⟩
  · obtain rfl : ls' = [] := by
      rcases ls' with _ | ⟨l', ls'⟩
      · rfl
      · simp at hf
    exact hc
  · obtain ⟨l', ls', rfl⟩ : ∃ l' t, ls' = l' :: t := by
      rcases ls' with _ | ⟨l', ls'⟩
      · simp at hf
      · exact ⟨l', ls', rfl⟩
    rw [List.isChain_append, List.isChain_append] at hc
    rw [List.isChain_append, List.isChain_append]
    obtain ⟨⟨ha, -, hal⟩, hb, hlb⟩ := hc
    refine ⟨⟨ha, hc', fun x hx y hy => ?_⟩, hb, fun x hx y hy => ?_⟩
    · obtain rfl : l' = y := by simpa using hy
      exact next_of_eq (hal x hx l (by simp)) rfl (by simpa using hf)
    · rw [List.getLast?_append_of_ne_nil _ (by simp)] at hx hlb
      rw [hx] at hl
      obtain ⟨z, hz, hzl⟩ := Option.map_eq_some_iff.1 hl.symm
      exact next_of_eq (hlb z hz y hy) hzl.symm rfl

/-- Focus on a segment of stored trees, and what comes of the whole when an operation on the segment is
done. -/
theorem Good.segment {s : Store ν} {lo hi : Option Int} {ka ms kb : List Int} {ca ds cb : List (PT h)}
    (g : Good strict s lo hi (ka ++ ms ++ kb) (ca ++ ds ++ cb)) (ha : ka.length = ca.length) (hb : kb.length = cb.length) :
    Good strict s (ka.getLast?.or lo) (kb.head?.or hi) ms ds ∧
      ∀ s' ms' ds', Good strict s' (ka.getLast?.or lo) (kb.head?.or hi) ms' ds' → Steps s s' ds ds' →
        Good strict s' lo hi (ka ++ ms' ++ kb) (ca ++ ds' ++ cb) ∧ Steps s s' (ca ++ ds ++ cb) (ca ++ ds' ++ cb) := by
  obtain ⟨hkids, hstored, hnodup, hrange, hchain⟩ := g
  obtain ⟨hseg, hplug⟩ := hkids.segment ha hb
  simp only [PT.nodesL, PT.pagesL, PT.leavesL, List.flatMap_append] at hstored hnodup hrange hchain
  have hsplit := List.nodup_append.1 hnodup
  have hsplit' := List.nodup_append.1 hsplit.1
  refine ⟨⟨hseg, fun x hx => hstored x (by simp [hx]), hsplit'.2.1, fun p hp => hrange p (by simp [hp]), ?_⟩,
    fun s' ms' ds' g' hs => ⟨⟨?_, ?_, ?_, ?_, ?_⟩, ?_⟩⟩
  · exact (List.isChain_append.1 (List.isChain_append.1 hchain).1).2.1
  · exact hplug _ _ g'.kids
  · intro x hx
    simp only [PT.nodesL, List.flatMap_append, List.mem_append] at hx
    rcases hx with (hx | hx) | hx
    · have hp := mem_pages_of_nodes hx
      rw [hs.frame _ (hrange _ (by simp [hp])).2 fun hd => hsplit'.2.2 _ hp _ hd rfl, hstored x (by simp [hx])]
    · exact g'.stored x hx
    · have hp := mem_pages_of_nodes hx
      rw [hs.frame _ (hrange _ (by simp [hp])).2 fun hd => hsplit.2.2 _ (by simp [hd]) _ hp rfl, hstored x (by simp [hx])]
  · simp only [PT.pagesL, List.flatMap_append]
    have hold : ∀ p ∈ ca.flatMap PT.pages, p ∉ ds'.flatMap PT.pages := by
      intro p hp hd
      rcases hs.pages p hd with hd | hd
      · exact hsplit'.2.2 _ hp _ hd rfl
      · exact absurd (hrange p (by simp [hp])).2 (not_lt.2 hd)
    have hold' : ∀ p ∈ cb.flatMap PT.pages, p ∉ ds'.flatMap PT.pages := by
      intro p hp hd
      rcases hs.pages p hd with hd | hd
      · exact hsplit.2.2 _ (by simp [hd]) _ hp rfl
      · exact absurd (hrange p (by simp [hp])).2 (not_lt.2 hd)
    refine List.nodup_append.2 ⟨List.nodup_append.2 ⟨hsplit'.1, g'.nodup, ?_⟩, hsplit.2.1, ?_⟩
    · rintro p hp q hq rfl
      exact hold p hp hq
    · rintro p hp q hq rfl
      rcases List.mem_append.1 hp with hp | hp
      · exact hsplit.2.2 _ (by simp [hp]) _ hq rfl
      · exact hold' p hq hp
  · intro p hp
    simp only [PT.pagesL, List.flatMap_append, List.mem_append] at hp
    rcases hp with (hp | hp) | hp
    · exact ⟨(hrange p (by simp [hp])).1, (hrange p (by simp [hp])).2.trans_le hs.numPages⟩
    · exact g'.range p hp
    · exact ⟨(hrange p (by simp [hp])).1, (hrange p (by simp [hp])).2.trans_le hs.numPages⟩
  · simp only [PT.leavesL, List.flatMap_append]
    exact isChain_replace hchain g'.chain hs.first hs.last
  · refine ⟨fun p hp => ?_, fun p hlt hp => ?_, hs.numPages, ?_, ?_⟩
    · simp only [PT.pagesL, List.flatMap_append, List.mem_append] at hp ⊢
      rcases hp with (hp | hp) | hp
      · exact .inl (.inl (.inl hp))
      · exact (hs.pages p hp).imp_left fun hd => .inl (.inr hd)
      · exact .inl (.inr hp)
    · simp only [PT.pagesL, List.flatMap_append, List.mem_append, not_or] at hp
      exact hs.frame p hlt hp.1.2
    · simp only [PT.leavesL, List.flatMap_append, List.head?_append, Option.map_or]
      have := hs.first
      rw [this]
    · simp only [PT.leavesL, List.flatMap_append, List.getLast?_append, Option.map_or]
      have := hs.last
      rw [this]

/-! ### Writing the parent -/

@[simp] theorem Store.nodes_set_self {s : Store ν} {n : Nat} {nd : Node ν} : (s.set n nd).nodes n = .ok nd.reread := by
  simp [Store.set]

theorem Store.nodes_set_other {s : Store ν} {n m : Nat} {nd : Node ν} (hm : m ≠ n) :
    (s.set n nd).nodes m = s.nodes m := by
  simp [Store.set, hm]

theorem Store.numPages_set {s : Store ν} {n : Nat} {nd : Node ν} (hn : n < s.numPages) :
    (s.set n nd).numPages = s.numPages := by
  simp only [Store.set]
  omega

/-- Only the pages of the trees matter. -/
theorem Good.of_agree {s s' : Store ν} {lo hi : Option Int} {ms : List Int} {ds : List (PT h)} (g : Good strict s lo hi ms ds)
    (hn : ∀ p ∈ PT.pagesL ds, s'.nodes p = s.nodes p) (hle : s.numPages ≤ s'.numPages) : Good strict s' lo hi ms ds where
  kids := g.kids
  stored x hx := by rw [hn _ (mem_pages_of_nodes hx), g.stored x hx]
  nodup := g.nodup
  range q hq := ⟨(g.range q hq).1, (g.range q hq).2.trans_le hle⟩
  chain := g.chain

/-- The pages and the children of a stored internal node. -/
theorem Good.of_branch {s : Store ν} {lo hi : Option Int} {p : Nat} {keys : List Int} {kids : List (PT h)}
    (g : Good strict s lo hi [] [PT.branch p keys kids]) :
    Good strict s lo hi keys kids ∧ s.nodes p = .ok (.internal keys (kids.map PT.page)) ∧
      p ∉ PT.pagesL kids ∧ 0 < p ∧ p < s.numPages := by
  obtain ⟨hkids, hstored, hnodup, hrange, hchain⟩ := g
  simp only [PT.nodesL, PT.pagesL, PT.leavesL, List.flatMap_cons, List.flatMap_nil, List.append_nil, PT.nodes_branch,
    PT.pages_branch, PT.leaves_branch] at hstored hnodup hrange hchain
  obtain ⟨hp, hnodup⟩ := List.nodup_cons.1 hnodup
  rcases hkids with ⟨hb, -⟩
  exact ⟨⟨hb, fun x hx => hstored x (List.mem_cons_of_mem _ hx), hnodup, fun q hq => hrange q (List.mem_cons_of_mem _ hq),
    hchain⟩, hstored _ List.mem_cons_self, hp, hrange _ List.mem_cons_self⟩

theorem Good.branch {s : Store ν} {lo hi : Option Int} {keys : List Int} {kids : List (PT h)} (g : Good strict s lo hi keys kids)
    {p : Nat} (hp : p ∉ PT.pagesL kids) (hs : s.nodes p = .ok (.internal keys (kids.map PT.page)))
    (hrange : 0 < p ∧ p < s.numPages) : Good strict s lo hi [] [PT.branch p keys kids] := by
  refine ⟨.one g.kids g.kids.bounds, ?_, ?_, ?_, ?_⟩ <;>
    simp only [PT.nodesL, PT.pagesL, PT.leavesL, List.flatMap_cons, List.flatMap_nil, List.append_nil, PT.nodes_branch,
      PT.pages_branch, PT.leaves_branch]
  · intro x hx
    rcases List.mem_cons.1 hx with rfl | hx
    · exact hs
    · exact g.stored x hx
  · exact List.nodup_cons.2 ⟨hp, g.nodup⟩
  · intro q hq
    rcases List.mem_cons.1 hq with rfl | hq
    · exact hrange
    · exact g.range q hq
  · exact g.chain

/-- Two neighbouring lists of stored trees on disjoint pages. -/
theorem Good.append {s : Store ν} {lo hi : Option Int} {k : Int} {u v : List Int} {cs cs' : List (PT h)}
    (g : Good strict s lo (some k) u cs) (g' : Good strict s (some k) hi v cs') (hd : ∀ p ∈ PT.pagesL cs, p ∉ PT.pagesL cs')
    (hc : ∀ a ∈ (PT.leavesL cs).getLast?, ∀ b ∈ (PT.leavesL cs').head?, Next a b) :
    Good strict s lo hi (u ++ k :: v) (cs ++ cs') := by
  refine ⟨g.kids.append g'.kids, ?_, ?_, ?_, ?_⟩ <;>
    simp only [PT.nodesL, PT.pagesL, PT.leavesL, List.flatMap_append]
  · intro x hx
    exact (List.mem_append.1 hx).elim (g.stored x) (g'.stored x)
  · exact List.nodup_append.2 ⟨g.nodup, g'.nodup, fun p hp q hq e => hd p hp (e ▸ hq)⟩
  · intro p hp
    exact (List.mem_append.1 hp).elim (g.range p) (g'.range p)
  · exact List.isChain_append.2 ⟨g.chain, g'.chain, hc⟩

/-- A separator cuts a list of stored trees in two. -/
theorem Good.split {s : Store ν} {lo hi : Option Int} {k : Int} {u v : List Int} {cs : List (PT h)}
    (g : Good strict s lo hi (u ++ k :: v) cs) :
    Good strict s lo (some k) u (cs.take (u.length + 1)) ∧ Good strict s (some k) hi v (cs.drop (u.length + 1)) ∧
      (∀ p ∈ PT.pagesL (cs.take (u.length + 1)), p ∉ PT.pagesL (cs.drop (u.length + 1))) ∧
      ∀ a ∈ (PT.leavesL (cs.take (u.length + 1))).getLast?, ∀ b ∈ (PT.leavesL (cs.drop (u.length + 1))).head?, Next a b := by
  obtain ⟨hkids, hstored, hnodup, hrange, hchain⟩ := g
  obtain ⟨h1, h2⟩ := hkids.split
  have hcs := List.take_append_drop (u.length + 1) cs
  generalize cs.take (u.length + 1) = ca at *
  generalize cs.drop (u.length + 1) = cb at *
  subst hcs
  simp only [PT.nodesL, PT.pagesL, PT.leavesL, List.flatMap_append] at hstored hnodup hrange hchain
  obtain ⟨hn1, hn2, hd⟩ := List.nodup_append.1 hnodup
  obtain ⟨hc1, hc2, hc⟩ := List.isChain_append.1 hchain
  exact ⟨⟨h1, fun x hx => hstored x (List.mem_append_left _ hx), hn1, fun p hp => hrange p (List.mem_append_left _ hp), hc1⟩,
    ⟨h2, fun x hx => hstored x (List.mem_append_right _ hx), hn2, fun p hp => hrange p (List.mem_append_right _ hp), hc2⟩,
    fun p hp hq => hd p hp p hq rfl, hc⟩

omit [TreeLink ν] in
/-- What was done to the children of a node was done to the node, once its own page and new pages are
written. -/
theorem Steps.branch {s s' s'' : Store ν} {p : Nat} {keys : List Int} {kids kids' : List (PT h)} {ts : List (PT (h + 1))}
    (hs : Steps s s' kids kids') (hl : PT.leavesL ts = PT.leavesL kids')
    (hp : ∀ q ∈ PT.pagesL ts, q = p ∨ q ∈ PT.pagesL kids' ∨ s.numPages ≤ q)
    (hn : ∀ q, q < s.numPages → q ≠ p → s''.nodes q = s'.nodes q) (hle : s'.numPages ≤ s''.numPages) :
    Steps s s'' [PT.branch p keys kids] ts := by
  have hpages : ∀ q, q ∈ PT.pagesL [PT.branch p keys kids] ↔ q = p ∨ q ∈ PT.pagesL kids := by simp [PT.pagesL]
  have hleaves : PT.leavesL [PT.branch p keys kids] = PT.leavesL kids := by simp [PT.leavesL]
  refine ⟨fun q hq => ?_, fun q hlt hq => ?_, hs.numPages.trans hle, ?_, ?_⟩
  · rw [hpages]
    rcases hp q hq with rfl | hq | hq
    · exact .inl (.inl rfl)
    · exact (hs.pages q hq).imp_left .inr
    · exact .inr hq
  · rw [hpages, not_or] at hq
    rw [hn q hlt hq.1, hs.frame q hlt hq.2]
  · rw [hl, hleaves, hs.first]
  · rw [hl, hleaves, hs.last]

end LeafDb
