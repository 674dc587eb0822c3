import LeafDb.Node

/-!
# The tree checkers (`BTree.check`)

`check` walks the tree, then the leaf chain, and compares the two key sequences; it compares a separator
only with the smallest key on its right. What a successful check establishes is `Checked`, the same for
both engines. It implies correct routing exactly when two things it never looks at hold: keys left of a
separator are below it (`LeftBounded`), and the chain runs through cells of the tree.
-/

namespace LeafDb

/-- A check fails with the text of its assertion, or an expression in it raises. -/
inductive CheckError
  | failed (text : String)
  | raised (e : PyError)
deriving DecidableEq, Repr

/-- The result of a check. -/
structure CheckReport where
  keys : Nat
  balanced : Bool
deriving DecidableEq, Repr

/-- `assert`. -/
def ensure (p : Prop) [Decidable p] (text : String) : Except CheckError Unit :=
  if p then .ok () else .error (.failed text)

def liftPy {α : Type} : Except PyError α → Except CheckError α
  | .ok a => .ok a
  | .error e => .error (.raised e)

/-- What a walk of a subtree returns and what it adds to the accumulators of the walk. -/
structure Walk where
  lo : Option Int
  hi : Option Int
  walked : List Int
  depths : List Nat
deriving Repr

def minBytes : Nat := pageSize / 3

/-- `BTree._underflow`. -/
def underflow {ν : Type} [Link ν] : Node ν → Except PyError Bool
  | .leaf cells next =>
    if cells.length = 0 then .ok true else do return decide ((← (Node.leaf cells next).serializedSize) < minBytes)
  | .internal keys children =>
    if children.length < 2 then .ok true
    else do return decide ((← (Node.internal keys children : Node ν).serializedSize) < minBytes)

section Walks

variable {ν : Type} [Link ν] (load : Nat → Except PyError (Node ν))

/-- The page of the leftmost leaf. -/
def leftmost (fuel root : Nat) : Except PyError Nat := scanStart load none fuel root

end Walks

/-! ### The Python checker -/

namespace BTree

/-- `sorted(set(ks))`. -/
def sortedSet (ks : List Int) : List Int := ks.dedup.insertionSort (· ≤ ·)

/-- `keys[j] <= right_min` for the separators from number `j` on, against the minima of the subtrees at
their right; comparing with the minimum `None` of an empty subtree raises. -/
def separatorsSafe (pg : Nat) : Nat → List Int → List (Option Int) → Except CheckError Unit
  | j, k :: keys, some m :: mins => do
    ensure (k ≤ m) s!"unsafe separator in {pg}: keys[{j}]={k} > right-min {m}"
    separatorsSafe pg (j + 1) keys mins
  | _, _ :: _, none :: _ => .error (.raised .typeError)
  | _, _ :: _, [] => .error (.raised .indexError)
  | _, [], _ => .ok ()

variable (load : Nat → Except PyError PyNode)

def walk : Nat → Nat → Nat → Except CheckError Walk
  | 0, _, _ => .error (.raised .diverges)
  | fuel + 1, pg, depth => do
    match ← liftPy (load pg) with
    | .leaf cells _ =>
      let ks := cells.map Prod.fst
      ensure (ks = sortedSet ks) s!"leaf {pg} keys unsorted/dup"
      return ⟨ks.head?, ks.getLast?, ks, [depth]⟩
    | .internal keys children =>
      ensure (children.length = keys.length + 1)
        s!"internal {pg}: {children.length} children vs {keys.length} separators"
      ensure (keys = sortedSet keys) s!"internal {pg} separators unsorted"
      let bounds ← children.mapM fun cp => walk fuel cp (depth + 1)
      separatorsSafe pg 0 keys (bounds.tail.map Walk.lo)
      return ⟨(bounds.filterMap Walk.lo).min?, (bounds.filterMap Walk.hi).max?,
        bounds.flatMap Walk.walked, bounds.flatMap Walk.depths⟩

/-- The walk along the leaf chain. -/
def linked : Nat → Nat → List Nat → Except CheckError (List Int)
  | 0, _, _ => .error (.raised .diverges)
  | fuel + 1, page, seenPages => do
    match ← liftPy (load page) with
    | .internal _ _ => .error (.failed "leaf chain hit a non-leaf")
    | .leaf cells next =>
      ensure (page ∉ seenPages) "cycle in leaf chain"
      match next with
      | none => return cells.map Prod.fst
      | some page' => return cells.map Prod.fst ++ (← linked fuel page' (page :: seenPages))

def occupancy : Nat → Nat → Bool → Except CheckError Unit
  | 0, _, _ => .error (.raised .diverges)
  | fuel + 1, pg, isRoot => do
    let nd ← liftPy (load pg)
    if ¬ isRoot then
      let under ← liftPy (underflow nd)
      let size ← liftPy nd.serializedSize
      ensure (under = false) s!"node {pg} underfull ({size} bytes)"
    match nd with
    | .leaf _ _ => return ()
    | .internal _ children =>
      let _ ← children.mapM fun cp => occupancy fuel cp false
      return ()

/-- `BTree.check`. -/
def check (fuel root : Nat) : Except CheckError CheckReport := do
  let w ← walk load fuel root 1
  let page ← liftPy (leftmost load fuel root)
  let linkedKeys ← linked load fuel page []
  ensure (linkedKeys = w.walked) "leaf chain disagrees with tree order"
  occupancy load fuel root true
  let depths := w.depths.dedup.insertionSort (· ≤ ·)
  ensure (depths.length = 1) s!"unbalanced tree: leaves at depths {depths}"
  return ⟨w.walked.length, decide (depths.length = 1)⟩

end BTree

/-! ### The C++ checker -/

namespace Native

def strictlyAscending : List Int → Bool
  | a :: b :: ks => decide (a < b) && strictlyAscending (b :: ks)
  | _ => true

/-- `*mins[j + 1] < in.keys[j]`, or no minimum at all, is an unsafe separator. -/
def separatorsSafe (pg : Nat) : List Int → List (Option Int) → Except CheckError Unit
  | k :: keys, some m :: mins => do
    ensure (¬ m < k) s!"unsafe separator at {pg}"
    separatorsSafe pg keys mins
  | _ :: _, _ => .error (.failed s!"unsafe separator at {pg}")
  | [], _ => .ok ()

variable (load : Nat → Except PyError CNode)

/-- `Walker::go`. -/
def go : Nat → Nat → Nat → Bool → Except CheckError Walk
  | 0, _, _, _ => .error (.raised .diverges)
  | fuel + 1, pg, depth, isRoot => do
    let nd ← liftPy (load pg)
    match nd with
    | .leaf cells _ =>
      let ks := cells.map Prod.fst
      ensure (strictlyAscending ks = true) s!"leaf keys unsorted/dup at {pg}"
      if ¬ isRoot then
        let under ← liftPy (underflow nd)
        ensure (under = false) s!"leaf underfull: {pg}"
      return ⟨ks.head?, ks.getLast?, ks, [depth]⟩
    | .internal keys children =>
      ensure (children.length = keys.length + 1) s!"children/separators mismatch at {pg}"
      ensure (strictlyAscending keys = true) s!"separators unsorted at {pg}"
      if ¬ isRoot ∧ 1 < depth then
        let under ← liftPy (underflow nd)
        ensure (under = false) s!"internal underfull: {pg}"
      let bounds ← children.mapM fun c => go fuel c (depth + 1) false
      separatorsSafe pg keys (bounds.tail.map Walk.lo)
      return ⟨(bounds.filterMap Walk.lo).head?, (bounds.filterMap Walk.hi).getLast?,
        bounds.flatMap Walk.walked, bounds.flatMap Walk.depths⟩

/-- The walk along the leaf chain; `guard` caps its hops. -/
def linked (hops pg : Nat) : Except CheckError (List Int) := do
  match ← liftPy (load pg) with
  | .internal _ _ => .error (.failed "leaf chain hit non-leaf")
  | .leaf cells next =>
    match Link.follow next with
    | none => return cells.map Prod.fst
    | some pg' =>
      match hops with
      | 0 => .error (.failed "leaf chain exceeds tree size (cycle)")
      | hops + 1 => return cells.map Prod.fst ++ (← linked hops pg')

/-- `BTree::check`. The counters of the walk and the hop guard are 32-bit. -/
def check (fuel root : Nat) : Except CheckError CheckReport := do
  let w ← go load fuel root 1 true
  let pg ← liftPy (leftmost load fuel root)
  let linkedKeys ← linked load ((w.walked.length + 2) % 2 ^ 32) pg
  ensure (linkedKeys = w.walked) "leaf chain disagrees with tree order"
  let minDepth := w.depths.foldl min 0xFFFFFFFF
  let maxDepth := w.depths.foldl max 0
  ensure (minDepth = maxDepth) "unbalanced tree"
  return ⟨w.walked.length, decide (minDepth = maxDepth)⟩

end Native

/-! ### Page graphs -/

def Ascending (cells : List Cell) : Prop := cells.Pairwise fun a b => a.1 < b.1

section Graph

variable {ν : Type} [Link ν] (load : Nat → Except PyError (Node ν))

/-- The pages of the subtree at `root`. -/
inductive Under (root : Nat) : Nat → Prop
  | root : Under root root
  | child {p c : Nat} {keys : List Int} {children : List Nat} :
    Under root p → load p = .ok (.internal keys children) → c ∈ children → Under root c

/-- The pages of the leaf chain from page `n` on. -/
inductive ChainFrom (n : Nat) : Nat → Prop
  | head : ChainFrom n n
  | next {p q : Nat} {cells : List Cell} {nx : ν} :
    ChainFrom n p → load p = .ok (.leaf cells nx) → Link.follow nx = some q → ChainFrom n q

/-- The first leaf below `root`: following the first child. -/
inductive FirstLeaf : Nat → Nat → Prop
  | leaf {p : Nat} {cells : List Cell} {nx : ν} : load p = .ok (.leaf cells nx) → FirstLeaf p p
  | child {p c q : Nat} {keys : List Int} {children : List Nat} :
    load p = .ok (.internal keys (c :: children)) → FirstLeaf c q → FirstLeaf p q

/-- A cell of a leaf of the subtree at `root`. -/
def CellUnder (root : Nat) (c : Cell) : Prop :=
  ∃ p cells nx, Under load root p ∧ load p = .ok (.leaf cells nx) ∧ c ∈ cells

/-- A cell of a leaf of the chain that starts at the first leaf below `root`. -/
def CellOnChain (root : Nat) (c : Cell) : Prop :=
  ∃ q p cells nx, FirstLeaf load root q ∧ ChainFrom load q p ∧ load p = .ok (.leaf cells nx) ∧ c ∈ cells

/-- Every key below the child at the left of a separator is below the separator. -/
def LeftBounded (root : Nat) : Prop :=
  ∀ p keys children, Under load root p → load p = .ok (.internal keys children) →
    ∀ (j : Nat) sep c cell, keys[j]? = some sep → children[j]? = some c → CellUnder load c cell → cell.1 < sep

/-- The chain runs through cells of the tree only. -/
def ChainInTree (root : Nat) : Prop := ∀ c, CellOnChain load root c → CellUnder load root c

/-- Correct routing: the scan of the whole chain ends, in strictly ascending key order, and searching for
the key of a scanned cell returns its value. -/
def Routed (root : Nat) : Prop :=
  ∃ fuel cells, rangeScan load fuel root none none = .ok cells ∧ Ascending cells ∧
    ∀ c ∈ cells, ∃ fuel, search load fuel root c.1 = .ok (some c.2)

end Graph

end LeafDb
