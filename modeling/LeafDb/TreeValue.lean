import LeafDb.Base.Result
import LeafDb.NodeCodec
import LeafDb.TreeShape

/-!
# The operations on a tree as a value

What insertion, overwriting and deletion make of a tree, without its pages: each step of the code as a
function on trees. A step fails where the code indexes an empty list or splits what cannot be split; that a
node does not fit its page is a property of the result (`PT.Fits`), since the code finds it out by writing.
The programs over the pages compute these functions (`TreeInsert`, `TreeDelete`, `TreeOps`).
-/

namespace LeafDb

variable {ν : Type} [TreeLink ν] {h : Nat}

/-- The function fails. -/
abbrev Fails {α : Type} (x : Except PyError α) : Prop := ∃ e, x = .error e

/-- What a computation returns is used, and nothing there fails. -/
theorem fails_bind_pure {α β : Type} {x : Except PyError α} {g : α → β} : Fails (x >>= fun a => pure (g a)) ↔ Fails x := by
  constructor
  · rintro ⟨e, he⟩
    rcases x with e' | a
    · exact ⟨e', rfl⟩
    · cases he
  · rintro ⟨e, rfl⟩
    exact ⟨e, rfl⟩

namespace PT

/-- The node on the page of a tree. -/
def node : {h : Nat} → PT h → Node ν
  | 0, t => .leaf (PLeaf.cells t) (TreeLink.ofCode (PLeaf.link t))
  | _ + 1, t => .internal (PNode.keys t) ((PNode.kids t).map PT.page)

/-- `serialized_size`. -/
def size : {h : Nat} → PT h → Nat
  | 0, t => 9 + cellsSize (PLeaf.cells t)
  | _ + 1, t => 9 + 8 * (PNode.keys t).length + 4 * (PNode.kids t).length

/-- `_underflow`. -/
def under : {h : Nat} → PT h → Bool
  | 0, t => decide (PLeaf.cells t = [] ∨ size t < minBytes)
  | _ + 1, t => decide ((PNode.kids t).length < 2 ∨ size t < minBytes)

/-- `_can_spare`. -/
def spare (t : PT h) : Bool := decide (minBytes + 64 < t.size)

section Simp

variable (p l : Nat) (cells : List Cell) (keys : List Int) (kids : List (PT h))

@[simp] theorem node_leaf : (leaf p cells l).node (ν := ν) = .leaf cells (TreeLink.ofCode l) := rfl

@[simp] theorem node_branch : (branch p keys kids).node (ν := ν) = .internal keys (kids.map PT.page) := rfl

@[simp] theorem size_leaf : (leaf p cells l).size = 9 + cellsSize cells := rfl

@[simp] theorem size_branch : (branch p keys kids).size = 9 + 8 * keys.length + 4 * kids.length := rfl

theorem under_leaf : (leaf p cells l).under = decide (cells = [] ∨ 9 + cellsSize cells < minBytes) := rfl

theorem under_branch :
    (branch p keys kids).under = decide (kids.length < 2 ∨ 9 + 8 * keys.length + 4 * kids.length < minBytes) := rfl

end Simp

theorem node_mem : {h : Nat} → (t : PT h) → (t.page, t.node (ν := ν)) ∈ t.nodes
  | 0, t => by simp [page, node, nodes]
  | _ + 1, t => by simp [page, node, nodes]

/-! ### Rebalancing -/

/-- What a step leaves of two neighbouring children and the separator between them. -/
abbrev Pair (h : Nat) : Type := List Int × List (PT h)

/-- `_borrow_from_left`. -/
def borrowLeft : {h : Nat} → Int → PT h → PT h → Except PyError (Pair h)
  | 0, _, x, y =>
    match (PLeaf.cells x).getLast? with
    | none => .error .indexError
    | some m => .ok ([m.1], [leaf x.page (PLeaf.cells x).dropLast (PLeaf.link x), leaf y.page (m :: PLeaf.cells y) (PLeaf.link y)])
  | _ + 1, k, x, y =>
    match (PNode.keys x).getLast?, (PNode.kids x).getLast? with
    | some u, some m => .ok ([u], [branch x.page (PNode.keys x).dropLast (PNode.kids x).dropLast,
        branch y.page (k :: PNode.keys y) (m :: PNode.kids y)])
    | _, _ => .error .indexError

/-- `_borrow_from_right`: the separator comes from the second cell of the right leaf. -/
def borrowRight : {h : Nat} → Int → PT h → PT h → Except PyError (Pair h)
  | 0, _, x, y =>
    match PLeaf.cells y with
    | m :: f :: R => .ok ([f.1], [leaf x.page (PLeaf.cells x ++ [m]) (PLeaf.link x), leaf y.page (f :: R) (PLeaf.link y)])
    | _ => .error .indexError
  | _ + 1, k, x, y =>
    match PNode.keys y, PNode.kids y with
    | u :: R, m :: M => .ok ([u], [branch x.page (PNode.keys x ++ [k]) (PNode.kids x ++ [m]), branch y.page R M])
    | _, _ => .error .indexError

/-- `_merge`. -/
def merge : {h : Nat} → Int → PT h → PT h → Except PyError (Pair h)
  | 0, _, x, y => .ok ([], [leaf x.page (PLeaf.cells x ++ PLeaf.cells y) (PLeaf.link y)])
  | _ + 1, k, x, y => .ok ([], [branch x.page (PNode.keys x ++ k :: PNode.keys y) (PNode.kids x ++ PNode.kids y)])

/-- A step on the children at places `j` and `j + 1`. -/
def atPair (f : Int → PT h → PT h → Except PyError (Pair h)) (keys : List Int) (kids : List (PT h)) (j : Nat) :
    Except PyError (Pair h) :=
  match keys[j]?, kids[j]?, kids[j + 1]? with
  | some k, some x, some y => do
    let r ← f k x y
    return (keys.take j ++ r.1 ++ keys.drop (j + 1), kids.take j ++ r.2 ++ kids.drop (j + 2))
  | _, _, _ => .error .indexError

/-- `_rebalance` of child `i`. -/
def rebalance (keys : List Int) (kids : List (PT h)) (i : Nat) : Except PyError (Pair h) :=
  if i ≠ 0 ∧ (kids[i - 1]?).any spare then atPair borrowLeft keys kids (i - 1)
  else if (kids[i + 1]?).any spare then atPair borrowRight keys kids i
  else atPair merge keys kids (i - 1)

/-! ### The operations -/

/-- Whether a leaf has a cell with the key at the place where it belongs. -/
def hasKey (cells : List Cell) (key : Int) : Bool := (cells[bisectLeft (cells.map Prod.fst) key]?).any (·.1 = key)

/-- `_delete`: the tree, and whether the key was there. -/
def erase (key : Int) : {h : Nat} → PT h → Except PyError (PT h × Bool)
  | 0, t =>
    let cells := PLeaf.cells t
    if hasKey cells key then
      .ok (leaf t.page (cells.eraseIdx (bisectLeft (cells.map Prod.fst) key)) (PLeaf.link t), true)
    else .ok (t, false)
  | _ + 1, t =>
    let i := bisectRight (PNode.keys t) key
    match (PNode.kids t)[i]? with
    | none => .error .indexError
    | some c => do
      let r ← erase key c
      let kids := (PNode.kids t).set i r.1
      if r.2 && r.1.under then
        let p ← rebalance (PNode.keys t) kids i
        return (branch t.page p.1 p.2, true)
      else return (branch t.page (PNode.keys t) kids, r.2)

/-- What insertion makes of a tree: one or two trees with the separators between them, and the number of
the next new page. -/
abbrev Grown (h : Nat) : Type := Pair h × Nat

/-- The leaf on page `p`, split when the cells do not fit; `n` is the next new page. -/
def putLeaf (p : Nat) (cells : List Cell) (l n : Nat) : Except PyError (Grown 0) :=
  if 9 + cellsSize cells ≤ pageSize then .ok (([], [leaf p cells l]), n)
  else
    let mid := cells.length / 2
    if mid = 0 then .error .valueError
    else
      match (cells.drop mid).head? with
      | none => .error .indexError
      | some first => .ok (([first.1], [leaf p (cells.take mid) n, leaf n (cells.drop mid) l]), n + 1)

/-- The internal node on page `p`, split when it does not fit. -/
def putBranch (p : Nat) (keys : List Int) (kids : List (PT h)) (n : Nat) : Except PyError (Grown (h + 1)) :=
  if 9 + 8 * keys.length + 4 * kids.length ≤ pageSize then .ok (([], [branch p keys kids]), n)
  else
    let mid := keys.length / 2
    if mid = 0 then .error .valueError
    else
      match keys[mid]? with
      | none => .error .indexError
      | some sep => .ok (([sep], [branch p (keys.take mid) (kids.take (mid + 1)),
          branch n (keys.drop (mid + 1)) (kids.drop (mid + 1))]), n + 1)

/-- `_insert`. -/
def put (key : Int) (value : Bytes) : {h : Nat} → PT h → Nat → Except PyError (Grown h)
  | 0, t, n =>
    let cells := PLeaf.cells t
    if hasKey cells key then .error (.duplicateKey key)
    else putLeaf t.page (cells.insertIdx (bisectLeft (cells.map Prod.fst) key) (key, value)) (PLeaf.link t) n
  | _ + 1, t, n =>
    let i := bisectRight (PNode.keys t) key
    match (PNode.kids t)[i]? with
    | none => .error .indexError
    | some c => do
      let r ← put key value c n
      let keys := (PNode.keys t).take i ++ r.1.1 ++ (PNode.keys t).drop i
      let kids := (PNode.kids t).take i ++ r.1.2 ++ (PNode.kids t).drop (i + 1)
      if r.1.1 = [] then return (([], [branch t.page keys kids]), r.2)
      else putBranch t.page keys kids r.2

/-- The leaf with the new value of a key that is there. -/
def replace (key : Int) (value : Bytes) : {h : Nat} → PT h → PT h
  | 0, t =>
    let cells := PLeaf.cells t
    leaf t.page (cells.set (bisectLeft (cells.map Prod.fst) key) (key, value)) (PLeaf.link t)
  | _ + 1, t =>
    let i := bisectRight (PNode.keys t) key
    branch t.page (PNode.keys t) ((PNode.kids t).modify i (replace key value))

/-! ### Nodes that can be written -/

/-- Every number of the node fits its field, and values are not longer than `insert` lets them be. -/
def Packs : {h : Nat} → PT h → Prop
  | 0, t => PLeaf.link t < 2 ^ 32 ∧ ∀ c ∈ PLeaf.cells t, IsI64 c.1 ∧ c.2.length ≤ maxValueSize
  | _ + 1, t => (∀ k ∈ PNode.keys t, IsI64 k) ∧ ∀ c ∈ PNode.kids t, c.page < 2 ^ 32

/-- The node can be written. -/
def Fits (t : PT h) : Prop := t.Packs ∧ t.size ≤ pageSize

/-- Every node of the tree can be written, and internal nodes have one child more than separators. -/
def Legal : {h : Nat} → PT h → Prop
  | 0, t => Fits t
  | _ + 1, t => Fits t ∧ (PNode.kids t).length = (PNode.keys t).length + 1 ∧ ∀ c ∈ PNode.kids t, Legal c

@[simp] theorem legal_leaf (p l : Nat) (cells : List Cell) : (leaf p cells l).Legal ↔ (leaf p cells l).Fits := Iff.rfl

@[simp] theorem legal_branch (p : Nat) (keys : List Int) (kids : List (PT h)) :
    (branch p keys kids).Legal ↔ (branch p keys kids).Fits ∧ kids.length = keys.length + 1 ∧ ∀ c ∈ kids, Legal c := Iff.rfl

theorem packs_leaf {p l : Nat} {cells : List Cell} :
    (leaf p cells l).Packs ↔ l < 2 ^ 32 ∧ ∀ c ∈ cells, IsI64 c.1 ∧ c.2.length ≤ maxValueSize := Iff.rfl

theorem packs_branch {p : Nat} {keys : List Int} {kids : List (PT h)} :
    (branch p keys kids).Packs ↔ (∀ k ∈ keys, IsI64 k) ∧ ∀ c ∈ kids, c.page < 2 ^ 32 := Iff.rfl

theorem fits_leaf {p l : Nat} {cells : List Cell} :
    (leaf p cells l).Fits ↔
      (l < 2 ^ 32 ∧ ∀ c ∈ cells, IsI64 c.1 ∧ c.2.length ≤ maxValueSize) ∧ 9 + cellsSize cells ≤ pageSize := Iff.rfl

theorem fits_branch {p : Nat} {keys : List Int} {kids : List (PT h)} :
    (branch p keys kids).Fits ↔ ((∀ k ∈ keys, IsI64 k) ∧ ∀ c ∈ kids, c.page < 2 ^ 32) ∧
      9 + 8 * keys.length + 4 * kids.length ≤ pageSize := Iff.rfl

theorem Legal.fits : {h : Nat} → {t : PT h} → t.Legal → t.Fits
  | 0, _, hl => hl
  | _ + 1, _, hl => hl.1

end PT

/-- What insertion promises about. -/
structure Insertable (t : PT h) (key : Int) (value : Bytes) : Prop where
  legal : t.Legal
  key : IsI64 key
  value : value.length ≤ maxValueSize

/-! ### Writing a node -/

theorem toBytes_internal {keys : List Int} {children : List Nat} (hk : ∀ k ∈ keys, IsI64 k) (hc : ∀ c ∈ children, c < 2 ^ 32)
    (hs : 9 + 8 * keys.length + 4 * children.length < 2 ^ 32) :
    (Node.internal keys children : Node ν).toBytes = .ok (Node.internal keys children : Node ν).encode :=
  if_pos ⟨by omega, by omega, hk, hc⟩

theorem toBytes_leaf {cells : List Cell} {next : ν} (hn : Link.code next < 2 ^ 32)
    (hc : ∀ c ∈ cells, IsI64 c.1 ∧ c.2.length ≤ maxValueSize) (hs : 9 + cellsSize cells < 2 ^ 32) :
    (Node.leaf cells next).toBytes = .ok (Node.leaf cells next).encode := by
  have hlen := length_le_cellsSize cells
  refine if_pos ⟨hn, by omega, fun c hcm => ⟨(hc c hcm).1, ?_⟩⟩
  have := (hc c hcm).2
  rw [maxValueSize, pageSize] at this
  omega

theorem PT.Packs.toBytes : {h : Nat} → {t : PT h} → t.Packs → t.size < 2 ^ 32 →
    (t.node (ν := ν)).toBytes = .ok (t.node (ν := ν)).encode
  | 0, t, hp, hs => by
    obtain ⟨p, cells, l, rfl⟩ := PT.exists_leaf t
    obtain ⟨hl, hc⟩ := PT.packs_leaf.1 hp
    have hl' : Link.code (TreeLink.ofCode (ν := ν) l) < 2 ^ 32 := by rwa [TreeLink.code_ofCode]
    exact toBytes_leaf hl' hc hs
  | _ + 1, t, hp, hs => by
    obtain ⟨p, keys, kids, rfl⟩ := PT.exists_branch t
    obtain ⟨hk, hc⟩ := PT.packs_branch.1 hp
    refine toBytes_internal hk (fun c hcm => ?_) (by rwa [List.length_map])
    obtain ⟨d, hd, rfl⟩ := List.mem_map.1 hcm
    exact hc d hd

theorem PT.length_encode_node : {h : Nat} → (t : PT h) → (t.node (ν := ν)).encode.length = t.size
  | 0, _ => length_encode_leaf _ _
  | _ + 1, t => by
    obtain ⟨p, keys, kids, rfl⟩ := PT.exists_branch t
    rw [PT.node_branch, length_encode_internal, List.length_map, PT.size_branch]

theorem PT.Packs.serializedSize {t : PT h} (hp : t.Packs) (hs : t.size < 2 ^ 32) :
    (t.node (ν := ν)).serializedSize = .ok t.size := by
  rw [Node.serializedSize, PT.Packs.toBytes hp hs, ← PT.length_encode_node (ν := ν) t]
  rfl

/-- A node whose numbers fit is written if and only if it is not longer than a page. -/
theorem PT.Packs.node_fits {t : PT h} (hp : t.Packs) (hs : t.size < 2 ^ 32) :
    (t.node (ν := ν)).fits = .ok () ↔ t.size ≤ pageSize := by
  rw [Node.fits, PT.Packs.toBytes hp hs]
  change (if pageSize < (t.node (ν := ν)).encode.length then _ else _) = _ ↔ _
  rw [PT.length_encode_node]
  split
  · rename_i hlt
    exact ⟨nofun, fun h => absurd hlt (not_lt.2 h)⟩
  · rename_i hlt
    exact ⟨fun _ => not_lt.1 hlt, fun _ => rfl⟩

theorem PT.Fits.lt {t : PT h} (hf : t.Fits) : t.size < 2 ^ 32 := hf.2.trans_lt (by decide)

theorem PT.Fits.serializedSize {t : PT h} (hf : t.Fits) : (t.node (ν := ν)).serializedSize = .ok t.size :=
  PT.Packs.serializedSize hf.1 (PT.Fits.lt hf)

theorem PT.Fits.node_fits {t : PT h} (hf : t.Fits) : (t.node (ν := ν)).fits = .ok () :=
  (PT.Packs.node_fits hf.1 (PT.Fits.lt hf)).2 hf.2

theorem PT.Fits.underflow {t : PT h} (hf : t.Fits) : LeafDb.underflow (t.node (ν := ν)) = .ok t.under := by
  have hsize := PT.Fits.serializedSize (ν := ν) hf
  rcases h with _ | h
  · obtain ⟨p, cells, l, rfl⟩ := PT.exists_leaf t
    rw [PT.node_leaf] at hsize ⊢
    rw [LeafDb.underflow, PT.under_leaf, hsize]
    by_cases hc : cells = [] <;> simp [hc]
  · obtain ⟨p, keys, kids, rfl⟩ := PT.exists_branch t
    rw [PT.node_branch] at hsize ⊢
    rw [LeafDb.underflow, PT.under_branch, hsize]
    by_cases hc : kids.length < 2 <;> simp [hc]

theorem PT.Fits.canSpare {t : PT h} (hf : t.Fits) : LeafDb.canSpare (t.node (ν := ν)) = .ok t.spare := by
  rw [LeafDb.canSpare, PT.Fits.serializedSize hf]
  refine congrArg Except.ok (decide_eq_decide.2 ?_)
  rw [minBytes]
  omega

theorem fits_of_serializedSize {nd : Node ν} {size : Nat} (h : nd.serializedSize = .ok size) (hle : size ≤ pageSize) :
    nd.fits = .ok () := by
  obtain ⟨bytes, hb, hs⟩ := bind_eq_ok.1 h
  obtain rfl := Except.ok.inj hs
  rw [Node.fits, hb]
  exact if_neg (not_lt.2 hle)

theorem toBytes_of_fits {nd : Node ν} (h : nd.fits = .ok ()) : nd.toBytes = .ok nd.encode ∧ nd.encode.length ≤ pageSize := by
  obtain ⟨bytes, hb, hs⟩ := bind_eq_ok.1 h
  have henc : nd.encode = bytes := by
    unfold Node.toBytes at hb
    split at hb
    · exact Except.ok.inj hb
    · cases hb
  rw [henc]
  refine ⟨hb, not_lt.1 fun hlt => ?_⟩
  rw [if_pos hlt] at hs
  cases hs

/-- What was written fits. -/
theorem PT.fits_of_leaf {p l : Nat} {cells : List Cell} (h : ((PT.leaf p cells l).node (ν := ν)).fits = .ok ())
    (hv : ∀ c ∈ cells, c.2.length ≤ maxValueSize) : (PT.leaf p cells l).Fits := by
  obtain ⟨hb, hs⟩ := toBytes_of_fits h
  rw [PT.length_encode_node] at hs
  unfold Node.toBytes at hb
  split at hb
  · rename_i hc
    obtain ⟨hl, -, hc⟩ := hc
    rw [TreeLink.code_ofCode] at hl
    exact ⟨⟨hl, fun c hcm => ⟨(hc c hcm).1, hv c hcm⟩⟩, hs⟩
  · cases hb

theorem PT.fits_of_branch {p : Nat} {keys : List Int} {kids : List (PT h)}
    (h : ((PT.branch p keys kids).node (ν := ν)).fits = .ok ()) : (PT.branch p keys kids).Fits := by
  obtain ⟨hb, hs⟩ := toBytes_of_fits h
  rw [PT.length_encode_node] at hs
  unfold Node.toBytes at hb
  split at hb
  · rename_i hc
    obtain ⟨-, -, hk, hc⟩ := hc
    exact ⟨⟨hk, fun c hcm => hc _ (List.mem_map_of_mem hcm)⟩, hs⟩
  · cases hb

/-! ### The results can be written -/

namespace PT

theorem Legal.size_lt {t : PT h} (hl : t.Legal) (hu : t.under = true) : t.size < minBytes := by
  rcases h with _ | h
  · obtain ⟨p, cells, l, rfl⟩ := exists_leaf t
    rcases of_decide_eq_true hu with he | hs
    · obtain rfl : cells = [] := he
      exact show 9 + 0 < minBytes by decide
    · exact hs
  · obtain ⟨p, keys, kids, rfl⟩ := exists_branch t
    obtain ⟨-, hlen, -⟩ := hl
    change kids.length = keys.length + 1 at hlen
    rw [size_branch, minBytes, pageSize]
    rcases of_decide_eq_true hu with hs | hs
    · change kids.length < 2 at hs
      omega
    · rw [size_branch, minBytes, pageSize] at hs
      change 9 + 8 * keys.length + 4 * kids.length < _ at hs
      omega

/-- What a step makes of two neighbouring children, as far as the parent is concerned. -/
structure Stepped (x y : PT h) (r : Pair h) : Prop where
  legal : ∀ d ∈ r.2, d.Legal
  keys : ∀ u ∈ r.1, IsI64 u
  pages : ∀ d ∈ r.2, d.page = x.page ∨ d.page = y.page
  length_eq : r.2.length = r.1.length + 1
  length_le : r.1.length ≤ 1

section Stepped

variable {k : Int} {x y : PT h} {r : Pair h}

theorem borrowLeft_leaf (lp ll rp rl : Nat) (L rc : List Cell) (m : Cell) :
    borrowLeft k (leaf lp (L ++ [m]) ll) (leaf rp rc rl) = .ok ([m.1], [leaf lp L ll, leaf rp (m :: rc) rl]) := by
  change (match (L ++ [m]).getLast? with
    | none => Except.error PyError.indexError
    | some m' => .ok ([m'.1], [leaf lp (L ++ [m]).dropLast ll, leaf rp (m' :: rc) rl])) = _
  rw [List.getLast?_concat, List.dropLast_concat]

theorem borrowLeft_branch (lp rp : Nat) (L rk : List Int) (u : Int) (M rkids : List (PT h)) (m : PT h) :
    borrowLeft k (branch lp (L ++ [u]) (M ++ [m])) (branch rp rk rkids) =
      .ok ([u], [branch lp L M, branch rp (k :: rk) (m :: rkids)]) := by
  change (match (L ++ [u]).getLast?, (M ++ [m]).getLast? with
    | some u', some m' => Except.ok ([u'], [branch lp (L ++ [u]).dropLast (M ++ [m]).dropLast, branch rp (k :: rk) (m' :: rkids)])
    | _, _ => .error PyError.indexError) = _
  rw [List.getLast?_concat, List.getLast?_concat, List.dropLast_concat, List.dropLast_concat]

theorem borrowLeft_stepped (hx : x.Legal) (hy : y.Legal) (hk : IsI64 k) (hs : y.size < minBytes)
    (hr : borrowLeft k x y = .ok r) : Stepped x y r := by
  rcases h with _ | h
  · obtain ⟨lp, lc, ll, rfl⟩ := exists_leaf x
    obtain ⟨rp, rc, rl, rfl⟩ := exists_leaf y
    obtain ⟨⟨hll, hlc⟩, hls⟩ := fits_leaf.1 hx
    obtain ⟨⟨hrl, hrc⟩, -⟩ := fits_leaf.1 hy
    rcases List.eq_nil_or_concat lc with rfl | ⟨L, m, rfl⟩
    · cases hr
    rw [List.concat_eq_append] at hlc hls hr
    rw [borrowLeft_leaf] at hr
    obtain rfl := Except.ok.inj hr
    have hm := hlc m (by simp)
    have hml := hm.2
    rw [size_leaf, minBytes] at hs
    rw [cellsSize_append] at hls
    rw [maxValueSize] at hml
    rw [pageSize] at hs hls hml
    refine ⟨?_, ?_, ?_, rfl, le_rfl⟩
    · simp only [List.mem_cons, List.not_mem_nil, or_false, forall_eq_or_imp, forall_eq]
      refine ⟨⟨⟨hll, fun c hc => hlc c (List.mem_append_left _ hc)⟩, ?_⟩, ⟨hrl, fun c hc => ?_⟩, ?_⟩
      · rw [size_leaf, pageSize]
        omega
      · rcases List.mem_cons.1 hc with rfl | hc
        · exact hm
        · exact hrc c hc
      · rw [size_leaf, pageSize, cellsSize_cons]
        omega
    · simpa using hm.1
    · simp
  · obtain ⟨lp, lk, lkids, rfl⟩ := exists_branch x
    obtain ⟨rp, rk, rkids, rfl⟩ := exists_branch y
    obtain ⟨hlf, hlen, hlkids⟩ := (legal_branch ..).1 hx
    obtain ⟨hrf, hren, hrkids⟩ := (legal_branch ..).1 hy
    obtain ⟨⟨hlk, hlp⟩, hls⟩ := fits_branch.1 hlf
    obtain ⟨⟨hrk, hrp⟩, -⟩ := fits_branch.1 hrf
    rcases List.eq_nil_or_concat lk with rfl | ⟨L, u, rfl⟩
    · cases hr
    rcases List.eq_nil_or_concat lkids with rfl | ⟨M, m, rfl⟩
    · simp at hlen
    rw [List.concat_eq_append, List.concat_eq_append, borrowLeft_branch] at hr
    obtain rfl := Except.ok.inj hr
    rw [List.concat_eq_append] at hls hlkids hlen
    rw [List.concat_eq_append] at hls hlen
    rw [List.concat_eq_append] at hlk hlp
    rw [size_branch, minBytes, pageSize] at hs
    simp only [List.length_append, List.length_singleton] at hls hlen
    refine ⟨?_, ?_, ?_, rfl, le_rfl⟩
    · simp only [List.mem_cons, List.not_mem_nil, or_false, forall_eq_or_imp, forall_eq, legal_branch, fits_branch,
        List.length_cons]
      refine ⟨⟨⟨⟨fun a ha => hlk a (by simp [ha]), fun a ha => hlp a (by simp [ha])⟩, by omega⟩, by omega,
        fun a ha => hlkids a (by simp [ha])⟩, ⟨⟨⟨hk, hrk⟩, hlp m (by simp), hrp⟩, ?_⟩, by omega, hlkids m (by simp), hrkids⟩
      rw [pageSize]
      omega
    · simpa using hlk u (by simp)
    · simp

theorem borrowRight_stepped (hx : x.Legal) (hy : y.Legal) (hk : IsI64 k) (hs : x.size < minBytes)
    (hr : borrowRight k x y = .ok r) : Stepped x y r := by
  rcases h with _ | h
  · obtain ⟨lp, lc, ll, rfl⟩ := exists_leaf x
    obtain ⟨rp, rc, rl, rfl⟩ := exists_leaf y
    obtain ⟨⟨hll, hlc⟩, -⟩ := fits_leaf.1 hx
    obtain ⟨⟨hrl, hrc⟩, hrs⟩ := fits_leaf.1 hy
    rcases rc with _ | ⟨m, _ | ⟨f, R⟩⟩
    · cases hr
    · cases hr
    obtain rfl : r = ([f.1], [leaf lp (lc ++ [m]) ll, leaf rp (f :: R) rl]) := (Except.ok.inj hr).symm
    have hm := hrc m (by simp)
    have hml := hm.2
    rw [size_leaf, minBytes] at hs
    rw [cellsSize_cons] at hrs
    rw [maxValueSize] at hml
    rw [pageSize] at hs hrs hml
    refine ⟨?_, ?_, ?_, rfl, le_rfl⟩
    · simp only [List.mem_cons, List.not_mem_nil, or_false, forall_eq_or_imp, forall_eq]
      refine ⟨⟨⟨hll, fun c hc => ?_⟩, ?_⟩, ⟨hrl, fun c hc => hrc c (List.mem_cons_of_mem _ hc)⟩, ?_⟩
      · rcases List.mem_append.1 hc with hc | hc
        · exact hlc c hc
        · exact List.mem_singleton.1 hc ▸ hm
      · rw [size_leaf, pageSize, cellsSize_append, cellsSize_cons, cellsSize_nil]
        omega
      · rw [size_leaf, pageSize]
        omega
    · simpa using (hrc f (by simp)).1
    · simp
  · obtain ⟨lp, lk, lkids, rfl⟩ := exists_branch x
    obtain ⟨rp, rk, rkids, rfl⟩ := exists_branch y
    obtain ⟨hlf, hlen, hlkids⟩ := (legal_branch ..).1 hx
    obtain ⟨hrf, hren, hrkids⟩ := (legal_branch ..).1 hy
    obtain ⟨⟨hlk, hlp⟩, -⟩ := fits_branch.1 hlf
    obtain ⟨⟨hrk, hrp⟩, hrs⟩ := fits_branch.1 hrf
    rcases rk with _ | ⟨u, R⟩
    · cases hr
    rcases rkids with _ | ⟨m, M⟩
    · simp at hren
    obtain rfl : r = ([u], [branch lp (lk ++ [k]) (lkids ++ [m]), branch rp R M]) := (Except.ok.inj hr).symm
    rw [size_branch, minBytes, pageSize] at hs
    simp only [List.length_cons] at hrs hren
    refine ⟨?_, ?_, ?_, rfl, le_rfl⟩
    · simp only [List.mem_cons, List.not_mem_nil, or_false, forall_eq_or_imp, forall_eq, legal_branch, fits_branch,
        List.length_append, List.mem_append]
      refine ⟨⟨⟨⟨fun a ha => ha.elim (hlk a) fun ha => ha ▸ hk, fun a ha => ha.elim (hlp a) fun ha => ha ▸ hrp m (by simp)⟩, ?_⟩,
        by simp only [List.length_cons, List.length_nil]; omega, fun a ha => ha.elim (hlkids a) fun ha => ha ▸ hrkids m (by simp)⟩,
        ⟨⟨fun a ha => hrk a (by simp [ha]), fun a ha => hrp a (by simp [ha])⟩, by omega⟩, by omega,
        fun a ha => hrkids a (by simp [ha])⟩
      simp only [List.length_cons, List.length_nil, pageSize]
      omega
    · simpa using hrk u (by simp)
    · simp

theorem merge_stepped (hx : x.Legal) (hy : y.Legal) (hk : IsI64 k) (hs : x.size + y.size ≤ pageSize)
    (hr : merge k x y = .ok r) : Stepped x y r := by
  rcases h with _ | h
  · obtain ⟨lp, lc, ll, rfl⟩ := exists_leaf x
    obtain ⟨rp, rc, rl, rfl⟩ := exists_leaf y
    obtain ⟨⟨-, hlc⟩, -⟩ := fits_leaf.1 hx
    obtain ⟨⟨hrl, hrc⟩, -⟩ := fits_leaf.1 hy
    obtain rfl : r = ([], [leaf lp (lc ++ rc) rl]) := (Except.ok.inj hr).symm
    rw [size_leaf, size_leaf] at hs
    refine ⟨?_, by simp, by simp, rfl, by simp⟩
    simp only [List.mem_cons, List.not_mem_nil, or_false, forall_eq]
    refine ⟨⟨hrl, fun c hc => (List.mem_append.1 hc).elim (hlc c) (hrc c)⟩, ?_⟩
    rw [size_leaf, cellsSize_append]
    omega
  · obtain ⟨lp, lk, lkids, rfl⟩ := exists_branch x
    obtain ⟨rp, rk, rkids, rfl⟩ := exists_branch y
    obtain ⟨hlf, hlen, hlkids⟩ := (legal_branch ..).1 hx
    obtain ⟨hrf, hren, hrkids⟩ := (legal_branch ..).1 hy
    obtain ⟨⟨hlk, hlp⟩, -⟩ := fits_branch.1 hlf
    obtain ⟨⟨hrk, hrp⟩, -⟩ := fits_branch.1 hrf
    obtain rfl : r = ([], [branch lp (lk ++ k :: rk) (lkids ++ rkids)]) := (Except.ok.inj hr).symm
    rw [size_branch, size_branch] at hs
    refine ⟨?_, by simp, by simp, rfl, by simp⟩
    simp only [List.mem_cons, List.not_mem_nil, or_false, forall_eq, legal_branch, fits_branch, List.length_append,
      List.mem_append, List.length_cons]
    refine ⟨⟨⟨fun a ha => ?_, fun a ha => ha.elim (hlp a) (hrp a)⟩, by omega⟩, by omega, fun a ha => ha.elim (hlkids a) (hrkids a)⟩
    rcases ha with ha | rfl | ha
    · exact hlk a ha
    · exact hk
    · exact hrk a ha

end Stepped

section Rebalance

variable {f : Int → PT h → PT h → Except PyError (Pair h)} {keys : List Int} {kids : List (PT h)} {i j : Nat} {p : Pair h}

theorem atPair_append {ka kb : List Int} {ca cb : List (PT h)} {k : Int} {x y : PT h} (hla : ka.length = ca.length) :
    atPair f (ka ++ [k] ++ kb) (ca ++ [x, y] ++ cb) ka.length =
      (f k x y).map fun r => (ka ++ r.1 ++ kb, ca ++ r.2 ++ cb) := by
  have h1 : (ka ++ [k] ++ kb)[ka.length]? = some k := by simp
  have h2 : (ca ++ [x, y] ++ cb)[ka.length]? = some x := by simp [hla]
  have h3 : (ca ++ [x, y] ++ cb)[ka.length + 1]? = some y := by simp [hla]
  have h4 : (ka ++ [k] ++ kb).take ka.length = ka := by simp
  have h5 : (ka ++ [k] ++ kb).drop (ka.length + 1) = kb := by simp
  have h6 : (ca ++ [x, y] ++ cb).take ka.length = ca := by simp [hla]
  have h7 : (ca ++ [x, y] ++ cb).drop (ka.length + 2) = cb := by simp [hla]
  rw [atPair, h1, h2, h3]
  simp only [h4, h5, h6, h7]
  rcases f k x y with e | r <;> rfl

theorem atPair_eq_ok : atPair f keys kids j = .ok p ↔ ∃ k x y r, keys[j]? = some k ∧ kids[j]? = some x ∧
    kids[j + 1]? = some y ∧ f k x y = .ok r ∧
      p = (keys.take j ++ r.1 ++ keys.drop (j + 1), kids.take j ++ r.2 ++ kids.drop (j + 2)) := by
  rw [atPair]
  rcases keys[j]? with _ | k <;> rcases kids[j]? with _ | x <;> rcases kids[j + 1]? with _ | y <;> simp
  rcases f k x y with e | r
  · exact ⟨nofun, nofun⟩
  · refine ⟨fun h => ⟨r.1, r.2, rfl, (Except.ok.inj h).symm⟩, ?_⟩
    rintro ⟨a, b, h, rfl⟩
    obtain rfl := Except.ok.inj h
    rfl

/-- A level of children with their separators that a parent can hold. -/
structure LegalKids (keys : List Int) (kids : List (PT h)) : Prop where
  length_eq : kids.length = keys.length + 1
  keys : ∀ k ∈ keys, IsI64 k
  legal : ∀ c ∈ kids, c.Legal
  pages : ∀ c ∈ kids, c.page < 2 ^ 32

theorem LegalKids.branch (hk : LegalKids keys kids) {q : Nat} (hs : keys.length ≤ 340) : (branch q keys kids).Legal := by
  have hlen := hk.length_eq
  refine ⟨⟨⟨hk.keys, hk.pages⟩, ?_⟩, hlen, hk.legal⟩
  rw [size_branch, pageSize]
  omega

theorem Legal.legalKids {q : Nat} (hl : (PT.branch q keys kids).Legal) : LegalKids keys kids ∧ keys.length ≤ 340 := by
  obtain ⟨⟨⟨hk, hp⟩, hs⟩, hlen, hkids⟩ := hl
  rw [size_branch, pageSize] at hs
  change kids.length = keys.length + 1 at hlen
  exact ⟨⟨hlen, hk, hkids, hp⟩, by omega⟩

theorem LegalKids.atPair (hk : LegalKids keys kids)
    (hf : ∀ k x y r, keys[j]? = some k → kids[j]? = some x → kids[j + 1]? = some y → f k x y = .ok r → Stepped x y r)
    (hp : atPair f keys kids j = .ok p) : LegalKids p.1 p.2 ∧ p.1.length ≤ keys.length := by
  obtain ⟨k, x, y, r, hkj, hxj, hyj, hr, rfl⟩ := atPair_eq_ok.1 hp
  obtain ⟨hlegal, hkeys, hpages, hlen, hle⟩ := hf k x y r hkj hxj hyj hr
  have hj := (List.getElem?_eq_some_iff.1 hyj).1
  have hlen' := hk.length_eq
  refine ⟨⟨?_, fun u hu => ?_, fun c hc => ?_, fun c hc => ?_⟩, ?_⟩
  · simp only [List.length_append, List.length_take, List.length_drop]
    omega
  · simp only [List.mem_append] at hu
    rcases hu with (hu | hu) | hu
    · exact hk.keys u (List.mem_of_mem_take hu)
    · exact hkeys u hu
    · exact hk.keys u (List.mem_of_mem_drop hu)
  · simp only [List.mem_append] at hc
    rcases hc with (hc | hc) | hc
    · exact hk.legal c (List.mem_of_mem_take hc)
    · exact hlegal c hc
    · exact hk.legal c (List.mem_of_mem_drop hc)
  · simp only [List.mem_append] at hc
    rcases hc with (hc | hc) | hc
    · exact hk.pages c (List.mem_of_mem_take hc)
    · rcases hpages c hc with he | he <;> rw [he]
      · exact hk.pages x (List.mem_of_getElem? hxj)
      · exact hk.pages y (List.mem_of_getElem? hyj)
    · exact hk.pages c (List.mem_of_mem_drop hc)
  · simp only [List.length_append, List.length_take, List.length_drop]
    omega

/-- Rebalancing a node that is underfull leaves nodes that can be written. -/
theorem LegalKids.rebalance (hk : LegalKids keys kids) {c : PT h} (hc : kids[i]? = some c) (hs : c.size < minBytes)
    (hp : rebalance keys kids i = .ok p) : LegalKids p.1 p.2 ∧ p.1.length ≤ keys.length := by
  have hlegal : ∀ {j : Nat} {d : PT h}, kids[j]? = some d → d.Legal := fun hd => hk.legal _ (List.mem_of_getElem? hd)
  have hkey : ∀ {j : Nat} {u : Int}, keys[j]? = some u → IsI64 u := fun hu => hk.keys _ (List.mem_of_getElem? hu)
  rw [PT.rebalance] at hp
  split at hp
  · rename_i hi
    refine hk.atPair (fun k x y r hkj hx hy hr => ?_) hp
    rw [show i - 1 + 1 = i by omega, hc] at hy
    cases hy
    exact borrowLeft_stepped (hlegal hx) (hlegal hc) (hkey hkj) hs hr
  rename_i hleft
  split at hp
  · refine hk.atPair (fun k x y r hkj hx hy hr => ?_) hp
    rw [hc] at hx
    cases hx
    exact borrowRight_stepped (hlegal hc) (hlegal hy) (hkey hkj) hs hr
  · rename_i hright
    have hspare : ∀ d : PT h, d.spare = false → d.size ≤ minBytes + 64 := by
      intro d hd
      exact not_lt.1 (of_decide_eq_false hd)
    rw [minBytes, pageSize] at hs
    refine hk.atPair (fun k x y r hkj hx hy hr => merge_stepped (hlegal hx) (hlegal hy) (hkey hkj) ?_ hr) hp
    rcases Nat.eq_zero_or_pos i with rfl | hi
    · rw [Nat.zero_sub, hc] at hx
      cases hx
      have := hspare y (by simpa [show kids[0 + 1]? = some y from hy] using hright)
      rw [minBytes, pageSize] at this
      rw [pageSize]
      omega
    · rw [show i - 1 + 1 = i by omega, hc] at hy
      cases hy
      have := hspare x (by simpa [hx, hi.ne'] using hleft)
      rw [minBytes, pageSize] at this
      rw [pageSize]
      omega

end Rebalance

section Erase

variable {key : Int}

theorem hasKey_append {L R : List Cell} (hb : bisectLeft ((L ++ R).map Prod.fst) key = L.length) :
    hasKey (L ++ R) key = R.head?.any (·.1 = key) := by
  rw [hasKey, hb, List.getElem?_append_right le_rfl, Nat.sub_self, List.head?_eq_getElem?]

theorem cellsSize_eraseIdx_le (cells : List Cell) (i : Nat) : cellsSize (cells.eraseIdx i) ≤ cellsSize cells := by
  rw [cellsSize, cellsSize]
  exact ((cells.eraseIdx_sublist i).map _).sum_le_sum (by simp)

theorem erase_leaf (p l : Nat) (cells : List Cell) :
    erase key (leaf p cells l) = if hasKey cells key then
      .ok (leaf p (cells.eraseIdx (bisectLeft (cells.map Prod.fst) key)) l, true) else .ok (leaf p cells l, false) := rfl

theorem erase_branch {p : Nat} {keys : List Int} {kids : List (PT h)} {c : PT h}
    (hc : kids[bisectRight keys key]? = some c) :
    erase key (branch p keys kids) = (do
      let r ← erase key c
      let kids' := kids.set (bisectRight keys key) r.1
      if r.2 && r.1.under then
        let q ← rebalance keys kids' (bisectRight keys key)
        return (branch p q.1 q.2, true)
      else return (branch p keys kids', r.2)) := by
  rw [erase]
  change (match kids[bisectRight keys key]? with
    | none => Except.error PyError.indexError
    | some c => _) = _
  rw [hc]
  rfl

theorem erase_branch_none {p : Nat} {keys : List Int} {kids : List (PT h)} (hc : kids[bisectRight keys key]? = none) :
    erase key (branch p keys kids) = .error .indexError := by
  rw [erase]
  change (match kids[bisectRight keys key]? with
    | none => Except.error PyError.indexError
    | some c => _) = _
  rw [hc]

theorem LegalKids.set {keys : List Int} {kids : List (PT h)} {i : Nat} {c c' : PT h} (hk : LegalKids keys kids)
    (hc : kids[i]? = some c) (hl : c'.Legal) (hp : c'.page = c.page) : LegalKids keys (kids.set i c') := by
  refine ⟨by rw [List.length_set, hk.length_eq], hk.keys, fun d hd => ?_, fun d hd => ?_⟩
  · rcases List.mem_or_eq_of_mem_set hd with hd | rfl
    · exact hk.legal d hd
    · exact hl
  · rcases List.mem_or_eq_of_mem_set hd with hd | rfl
    · exact hk.pages d hd
    · rw [hp]
      exact hk.pages c (List.mem_of_getElem? hc)

/-- Deletion leaves nodes that can be written. -/
theorem erase_legal : {h : Nat} → {t : PT h} → {r : PT h × Bool} → t.Legal → erase key t = .ok r →
    r.1.Legal ∧ r.1.page = t.page
  | 0, t, r, hl, hr => by
    obtain ⟨p, cells, l, rfl⟩ := exists_leaf t
    obtain ⟨⟨hlk, hc⟩, hs⟩ := fits_leaf.1 hl
    rw [erase_leaf] at hr
    split at hr
    · obtain rfl := Except.ok.inj hr
      refine ⟨⟨⟨hlk, fun c hcm => hc c (List.mem_of_mem_eraseIdx hcm)⟩, ?_⟩, rfl⟩
      exact (Nat.add_le_add_left (cellsSize_eraseIdx_le _ _) 9).trans hs
    · obtain rfl := Except.ok.inj hr
      exact ⟨hl, rfl⟩
  | h + 1, t, r, hl, hr => by
    obtain ⟨p, keys, kids, rfl⟩ := exists_branch t
    obtain ⟨hk, hlen⟩ := hl.legalKids
    rcases hc : kids[bisectRight keys key]? with _ | c
    · rw [erase_branch_none hc] at hr
      cases hr
    rw [erase_branch hc] at hr
    obtain ⟨⟨c', found⟩, hr', hr⟩ := bind_eq_ok.1 hr
    obtain ⟨hl', hp'⟩ := erase_legal (hk.legal c (List.mem_of_getElem? hc)) hr'
    have hk' := hk.set hc hl' hp'
    split at hr
    · rename_i hu
      obtain ⟨q, hq, hr⟩ := bind_eq_ok.1 hr
      obtain rfl := Except.ok.inj hr
      have hc' : (kids.set (bisectRight keys key) c')[bisectRight keys key]? = some c' :=
        List.getElem?_set_self (List.getElem?_eq_some_iff.1 hc).1
      obtain ⟨hk'', hle⟩ := hk'.rebalance hc' (hl'.size_lt (Bool.and_eq_true_iff.1 hu).2) hq
      exact ⟨hk''.branch (hle.trans hlen), rfl⟩
    · obtain rfl := Except.ok.inj hr
      exact ⟨hk'.branch hlen, rfl⟩

end Erase

section Put

variable {key : Int} {value : Bytes} {n : Nat}

theorem put_leaf (p l : Nat) (cells : List Cell) :
    put key value (leaf p cells l) n = if hasKey cells key then .error (.duplicateKey key)
      else putLeaf p (cells.insertIdx (bisectLeft (cells.map Prod.fst) key) (key, value)) l n := rfl

theorem put_branch {p : Nat} {keys : List Int} {kids : List (PT h)} {c : PT h}
    (hc : kids[bisectRight keys key]? = some c) :
    put key value (branch p keys kids) n = (do
      let r ← put key value c n
      let i := bisectRight keys key
      let keys' := keys.take i ++ r.1.1 ++ keys.drop i
      let kids' := kids.take i ++ r.1.2 ++ kids.drop (i + 1)
      if r.1.1 = [] then return (([], [branch p keys' kids']), r.2)
      else putBranch p keys' kids' r.2) := by
  rw [put]
  change (match kids[bisectRight keys key]? with
    | none => Except.error PyError.indexError
    | some c => _) = _
  rw [hc]
  rfl

theorem put_branch_none {p : Nat} {keys : List Int} {kids : List (PT h)} (hc : kids[bisectRight keys key]? = none) :
    put key value (branch p keys kids) n = .error .indexError := by
  rw [put]
  change (match kids[bisectRight keys key]? with
    | none => Except.error PyError.indexError
    | some c => _) = _
  rw [hc]

/-- What a node becomes when it is written, or written as two. -/
theorem putLeaf_eq_ok {p l : Nat} {cells : List Cell} {g : Grown 0} (hg : putLeaf p cells l n = .ok g) :
    (9 + cellsSize cells ≤ pageSize ∧ g = (([], [leaf p cells l]), n)) ∨
      ∃ first, ¬9 + cellsSize cells ≤ pageSize ∧ first ∈ cells ∧
        g = (([first.1], [leaf p (cells.take (cells.length / 2)) n, leaf n (cells.drop (cells.length / 2)) l]), n + 1) := by
  rw [putLeaf] at hg
  split at hg
  · rename_i hle
    exact .inl ⟨hle, (Except.ok.inj hg).symm⟩
  · rename_i hgt
    simp only at hg
    split at hg
    · cases hg
    split at hg
    · cases hg
    · rename_i first hfirst
      exact .inr ⟨first, hgt, List.mem_of_mem_drop (List.mem_of_mem_head? hfirst), (Except.ok.inj hg).symm⟩

theorem putBranch_eq_ok {p : Nat} {keys : List Int} {kids : List (PT h)} {g : Grown (h + 1)}
    (hg : putBranch p keys kids n = .ok g) :
    (9 + 8 * keys.length + 4 * kids.length ≤ pageSize ∧ g = (([], [branch p keys kids]), n)) ∨
      ∃ sep, ¬9 + 8 * keys.length + 4 * kids.length ≤ pageSize ∧ sep ∈ keys ∧
        g = (([sep], [branch p (keys.take (keys.length / 2)) (kids.take (keys.length / 2 + 1)),
          branch n (keys.drop (keys.length / 2 + 1)) (kids.drop (keys.length / 2 + 1))]), n + 1) := by
  rw [putBranch] at hg
  split at hg
  · rename_i hle
    exact .inl ⟨hle, (Except.ok.inj hg).symm⟩
  · rename_i hgt
    simp only at hg
    split at hg
    · cases hg
    split at hg
    · cases hg
    · rename_i sep hsep
      exact .inr ⟨sep, hgt, List.mem_of_getElem? hsep, (Except.ok.inj hg).symm⟩

/-- The new separators are keys of the tree or the key that was inserted. -/
theorem put_seps : {h : Nat} → {t : PT h} → {n : Nat} → {g : Grown h} → t.Legal → IsI64 key → put key value t n = .ok g →
    ∀ u ∈ g.1.1, IsI64 u
  | 0, t, n, g, hl, hk, hg => by
    obtain ⟨p, cells, l, rfl⟩ := exists_leaf t
    rw [put_leaf] at hg
    split at hg
    · cases hg
    obtain ⟨-, rfl⟩ | ⟨first, -, hfirst, rfl⟩ := putLeaf_eq_ok hg
    · simp
    · simp only [List.mem_singleton, forall_eq]
      obtain ⟨⟨-, hc⟩, -⟩ := fits_leaf.1 hl
      rcases List.eq_or_mem_of_mem_insertIdx hfirst with rfl | hf
      · exact hk
      · exact (hc first hf).1
  | h + 1, t, n, g, hl, hk, hg => by
    obtain ⟨p, keys, kids, rfl⟩ := exists_branch t
    obtain ⟨hkids, -⟩ := hl.legalKids
    rcases hc : kids[bisectRight keys key]? with _ | c
    · rw [put_branch_none hc] at hg
      cases hg
    rw [put_branch hc] at hg
    obtain ⟨r, hr, hg⟩ := bind_eq_ok.1 hg
    have hr' := put_seps (hkids.legal c (List.mem_of_getElem? hc)) hk hr
    simp only at hg
    split at hg
    · obtain rfl := Except.ok.inj hg
      simp
    · obtain ⟨-, rfl⟩ | ⟨sep, -, hsep, rfl⟩ := putBranch_eq_ok hg
      · simp
      · simp only [List.mem_singleton, forall_eq]
        rcases List.mem_append.1 hsep with hsep | hsep
        · rcases List.mem_append.1 hsep with hsep | hsep
          · exact hkids.keys sep (List.mem_of_mem_take hsep)
          · exact hr' sep hsep
        · exact hkids.keys sep (List.mem_of_mem_drop hsep)

/-- The children of a node are those of what it is written as. -/
theorem putBranch_kids {p : Nat} {keys : List Int} {kids : List (PT h)} {g : Grown (h + 1)}
    (hg : putBranch p keys kids n = .ok g) (hl : ∀ d ∈ g.1.2, d.Legal) : ∀ c ∈ kids, c.Legal ∧ c.page < 2 ^ 32 := by
  obtain ⟨-, rfl⟩ | ⟨sep, -, -, rfl⟩ := putBranch_eq_ok hg
  · have := (hl _ (List.mem_singleton.2 rfl)).legalKids.1
    exact fun c hc => ⟨this.legal c hc, this.pages c hc⟩
  · have h1 := (hl _ (List.mem_cons_self ..)).legalKids.1
    have h2 := (hl _ (List.mem_cons_of_mem _ (List.mem_cons_self ..))).legalKids.1
    intro c hc
    rw [← List.take_append_drop (keys.length / 2 + 1) kids, List.mem_append] at hc
    rcases hc with hc | hc
    · exact ⟨h1.legal c hc, h1.pages c hc⟩
    · exact ⟨h2.legal c hc, h2.pages c hc⟩

end Put

/-! ### Overwriting -/

section Replace

variable {key : Int} {value : Bytes}

theorem replace_branch {p : Nat} {keys : List Int} {ca cb : List (PT h)} {c : PT h} (hb : bisectRight keys key = ca.length) :
    replace key value (branch p keys (ca ++ [c] ++ cb)) = branch p keys (ca ++ [replace key value c] ++ cb) := by
  have hmod : (ca ++ [c] ++ cb).modify ca.length (replace key value) = ca ++ [replace key value c] ++ cb := by
    clear hb
    induction ca with
    | nil => rfl
    | cons d ca ih => exact congrArg (d :: ·) ih
  rw [← hmod, ← hb]
  rfl

end Replace

end PT

end LeafDb
