import LeafDb.Base.Exec
import LeafDb.TreeCheck

/-!
# The B+ tree operations (`btree.py`, `native/src/core.cpp`)

The two engines make the same page accesses in the same order and differ in how a node is held: Python
changes a decoded object that its cache may still hold (`mutate`) before it writes it, C++ works on copies
and has no cache. So an operation is written once, as a program over the page accesses (`TreeM`), and an
engine is an interpretation of it. `TreeM.run` is the one the proofs use: pages of decoded nodes, where it
is a failure to load a page whose object was changed and not yet written (`stale`).
-/

namespace LeafDb

/-- What an engine does with the link of a leaf, in both directions. -/
class TreeLink (ν : Type) extends Link ν where
  /-- A link as a page is decoded. -/
  ofCode : Nat → ν
  /-- The link to a page. -/
  ofPage : Nat → ν
  code_ofCode : ∀ n, code (ofCode n) = n
  code_ofPage : ∀ n, code (ofPage n) = n
  follow_noPage : follow (ofCode noPage) = none
  follow_ofCode : ∀ n, n ≠ 0 → n ≠ noPage → follow (ofCode n) = some n

instance : TreeLink (Option Nat) where
  ofCode n := if n = noPage then none else some n
  ofPage := some
  code_ofCode n := by
    by_cases h : n = noPage <;> simp [h, Link.code]
  code_ofPage n := rfl
  follow_noPage := by simp [Link.follow]
  follow_ofCode n _ h := by simp [h, Link.follow]

instance : TreeLink PageRef where
  ofCode n := ⟨n⟩
  ofPage n := ⟨n⟩
  code_ofCode n := rfl
  code_ofPage n := rfl
  follow_noPage := by simp [Link.follow]
  follow_ofCode n h h' := by simp [Link.follow, h, h']

/-! ### Page programs -/

/-- A computation that accesses pages. -/
inductive TreeM (ν α : Type)
  | pure (a : α)
  | fail (e : PyError)
  | load (n : Nat) (k : Node ν → TreeM ν α)
  | mutate (n : Nat) (nd : Node ν) (k : TreeM ν α)
  | write (n : Nat) (nd : Node ν) (k : TreeM ν α)
  | allocate (k : Nat → TreeM ν α)

namespace TreeM

variable {ν α β : Type}

def bind : TreeM ν α → (α → TreeM ν β) → TreeM ν β
  | pure a, f => f a
  | fail e, _ => fail e
  | load n k, f => load n fun nd => (k nd).bind f
  | mutate n nd k, f => mutate n nd (k.bind f)
  | write n nd k, f => write n nd (k.bind f)
  | allocate k, f => allocate fun n => (k n).bind f

instance : Monad (TreeM ν) where
  pure := TreeM.pure
  bind := TreeM.bind

def lift : Except PyError α → TreeM ν α
  | .ok a => pure a
  | .error e => fail e

end TreeM

/-- `self._load(n)`. -/
def loadNode {ν : Type} (n : Nat) : TreeM ν (Node ν) := .load n .pure

/-- The object `_load(n)` returned is now `nd`. -/
def mutate {ν : Type} (n : Nat) (nd : Node ν) : TreeM ν Unit := .mutate n nd (.pure ())

/-- `self.pager.write(n, nd.to_bytes())`. -/
def writeNode {ν : Type} (n : Nat) (nd : Node ν) : TreeM ν Unit := .write n nd (.pure ())

/-- `self.pager.allocate()`. -/
def allocatePage {ν : Type} : TreeM ν Nat := .allocate .pure

/-- `xs[i]`. -/
def at? {ν α : Type} (xs : List α) (i : Nat) : TreeM ν α :=
  match xs[i]? with
  | some a => .pure a
  | none => .fail .indexError

/-- `_can_spare`. -/
def canSpare {ν : Type} [Link ν] (nd : Node ν) : Except PyError Bool := do
  return decide (64 < ((← nd.serializedSize) : Int) - minBytes)

namespace BTree

variable {ν : Type} [TreeLink ν]

/-! ### Insertion -/

/-- `_split_leaf` of a leaf with these cells. -/
def splitLeaf (n : Nat) (cells : List Cell) (next : ν) : TreeM ν (Int × Nat) := do
  let mid := cells.length / 2
  if mid = 0 then TreeM.fail .valueError
  else
    let rightPage ← allocatePage
    writeNode rightPage (.leaf (cells.drop mid) next)
    writeNode n (.leaf (cells.take mid) (TreeLink.ofPage rightPage))
    let first ← at? (cells.drop mid) 0
    return (first.1, rightPage)

/-- `_split_internal`. -/
def splitInternal (n : Nat) (keys : List Int) (children : List Nat) : TreeM ν (Int × Nat) := do
  let mid := keys.length / 2
  if mid = 0 then TreeM.fail .valueError
  else
    let sep ← at? keys mid
    let rightPage ← allocatePage
    writeNode rightPage (.internal (keys.drop (mid + 1)) (children.drop (mid + 1)))
    writeNode n (.internal (keys.take mid) (children.take (mid + 1)))
    return (sep, rightPage)

/-- The changed node of page `n` is written, or split when it does not fit. -/
def putOrSplit (n : Nat) (nd : Node ν) (split : TreeM ν (Int × Nat)) : TreeM ν (Option (Int × Nat)) := do
  mutate n nd
  if (← TreeM.lift nd.serializedSize) ≤ pageSize then
    writeNode n nd
    return none
  else return some (← split)

/-- `_insert`; `fuel` bounds the depth. -/
def insertRec : Nat → Nat → Int → Bytes → TreeM ν (Option (Int × Nat))
  | 0, _, _, _ => .fail .diverges
  | fuel + 1, n, key, value => do
    match ← loadNode n with
    | .leaf cells next =>
      let i := bisectLeft (cells.map Prod.fst) key
      if (cells[i]?).any (·.1 = key) then TreeM.fail (.duplicateKey key)
      else
        let cells := cells.insertIdx i (key, value)
        putOrSplit n (.leaf cells next) (splitLeaf n cells next)
    | .internal keys children =>
      let i := bisectRight keys key
      match ← insertRec fuel (← at? children i) key value with
      | none => return none
      | some (sep, right) =>
        let keys := keys.insertIdx i sep
        let children := children.insertIdx (i + 1) right
        putOrSplit n (.internal keys children) (splitInternal n keys children)

/-- `insert`. -/
def insert (fuel root : Nat) (key : Int) (value : Bytes) : TreeM ν Nat := do
  if maxValueSize < value.length then TreeM.fail .valueError
  else
    match ← insertRec fuel root key value with
    | none => return root
    | some (sep, right) =>
      let n ← allocatePage
      writeNode n (.internal [sep] [root, right])
      return n

/-- The loop of `upsert` over a key that is there. -/
def overwrite (root : Nat) (key : Int) (value : Bytes) : Nat → Nat → TreeM ν Nat
  | 0, _ => .fail .diverges
  | fuel + 1, n => do
    match ← loadNode n with
    | .leaf cells next =>
      let i := bisectLeft (cells.map Prod.fst) key
      let _ ← at? cells i
      let nd := Node.leaf (cells.set i (key, value)) next
      mutate n nd
      writeNode n nd
      return root
    | .internal keys children => overwrite root key value fuel (← at? children (bisectRight keys key))

/-! ### Deletion -/

/-- What a rebalancing step leaves of the parent: separators and children. -/
abbrev Parent := List Int × List Nat

/-- `_borrow_from_left` and the writes that follow it. -/
def borrowFromLeft (pn : Nat) (p : Parent) (i leftPage childPage : Nat) (left child : Node ν) : TreeM ν Parent := do
  let sep ← at? p.1 (i - 1)
  match left, child with
  | .leaf lcells lnext, .leaf ccells cnext =>
    let moved ← at? lcells (lcells.length - 1)
    let left := Node.leaf lcells.dropLast lnext
    let child := Node.leaf (moved :: ccells) cnext
    store left child (p.1.set (i - 1) moved.1)
  | .internal lkeys lkids, .internal ckeys ckids =>
    let up ← at? lkeys (lkeys.length - 1)
    let moved ← at? lkids (lkids.length - 1)
    let left := Node.internal lkeys.dropLast lkids.dropLast
    let child := Node.internal (sep :: ckeys) (moved :: ckids)
    store left child (p.1.set (i - 1) up)
  | _, _ => .fail .attributeError
where
  store (left child : Node ν) (keys : List Int) : TreeM ν Parent := do
    mutate leftPage left
    mutate childPage child
    mutate pn (.internal keys p.2)
    writeNode leftPage left
    writeNode childPage child
    writeNode pn (.internal keys p.2)
    return (keys, p.2)

/-- `_borrow_from_right` and the writes that follow it. -/
def borrowFromRight (pn : Nat) (p : Parent) (i childPage rightPage : Nat) (child right : Node ν) : TreeM ν Parent := do
  match child, right with
  | .leaf ccells cnext, .leaf rcells rnext =>
    let moved ← at? rcells 0
    let child := Node.leaf (ccells ++ [moved]) cnext
    let right := Node.leaf rcells.tail rnext
    mutate childPage child
    mutate rightPage right
    let first ← at? rcells.tail 0
    let _ ← at? p.1 i
    store child right (p.1.set i first.1)
  | .internal ckeys ckids, .internal rkeys rkids =>
    let sep ← at? p.1 i
    let up ← at? rkeys 0
    let moved ← at? rkids 0
    let child := Node.internal (ckeys ++ [sep]) (ckids ++ [moved])
    let right := Node.internal rkeys.tail rkids.tail
    mutate childPage child
    mutate rightPage right
    store child right (p.1.set i up)
  | _, _ => .fail .attributeError
where
  store (child right : Node ν) (keys : List Int) : TreeM ν Parent := do
    mutate pn (.internal keys p.2)
    writeNode rightPage right
    writeNode childPage child
    writeNode pn (.internal keys p.2)
    return (keys, p.2)

/-- `_merge` of the children at places `j` and `j + 1`; the first page keeps the merged node. -/
def mergeAt (pn : Nat) (p : Parent) (j lowPage : Nat) (low high : Node ν) : TreeM ν Parent := do
  let sep ← at? p.1 j
  match low, high with
  | .leaf lcells _, .leaf hcells hnext => writeNode lowPage (.leaf (lcells ++ hcells) hnext)
  | .internal lkeys lkids, .internal hkeys hkids =>
    let merged := Node.internal (lkeys ++ sep :: hkeys) (lkids ++ hkids)
    mutate lowPage merged
    writeNode lowPage merged
  | _, _ => TreeM.fail .attributeError
  let keys := p.1.eraseIdx j
  let children := p.2.eraseIdx (j + 1)
  mutate pn (.internal keys children)
  return (keys, children)

/-- Borrowing from the left sibling, if there is one that can spare a cell. -/
def tryLeft (pn : Nat) (p : Parent) (i childPage : Nat) (child : Node ν) : TreeM ν (Option Parent) := do
  if i = 0 then return none
  else
    let leftPage ← at? p.2 (i - 1)
    let left ← loadNode leftPage
    if ← TreeM.lift (canSpare left) then
      return some (← borrowFromLeft pn p i leftPage childPage left child)
    else return none

/-- Borrowing from the right sibling, if there is one that can spare a cell. -/
def tryRight (pn : Nat) (p : Parent) (i childPage : Nat) (child : Node ν) : TreeM ν (Option Parent) := do
  if i + 1 < p.2.length then
    let rightPage ← at? p.2 (i + 1)
    let right ← loadNode rightPage
    if ← TreeM.lift (canSpare right) then
      return some (← borrowFromRight pn p i childPage rightPage child right)
    else return none
  else return none

/-- `_rebalance` of child `i`. -/
def rebalance (pn : Nat) (p : Parent) (i : Nat) : TreeM ν Parent := do
  let childPage ← at? p.2 i
  let child ← loadNode childPage
  match ← tryLeft pn p i childPage child with
  | some p => return p
  | none =>
    match ← tryRight pn p i childPage child with
    | some p => return p
    | none =>
      if i = 0 then
        let right ← loadNode (← at? p.2 1)
        mergeAt pn p 0 childPage child right
      else
        let leftPage ← at? p.2 (i - 1)
        let left ← loadNode leftPage
        mergeAt pn p (i - 1) leftPage left child

/-- `_delete`. -/
def deleteRec : Nat → Nat → Int → TreeM ν Bool
  | 0, _, _ => .fail .diverges
  | fuel + 1, n, key => do
    match ← loadNode n with
    | .leaf cells next =>
      let i := bisectLeft (cells.map Prod.fst) key
      if (cells[i]?).any (·.1 = key) then
        let nd := Node.leaf (cells.eraseIdx i) next
        mutate n nd
        writeNode n nd
        return true
      else return false
    | .internal keys children =>
      let i := bisectRight keys key
      let c ← at? children i
      if ← deleteRec fuel c key then
        let child ← loadNode c
        if ← TreeM.lift (underflow child) then
          let p ← rebalance n (keys, children) i
          writeNode n (.internal p.1 p.2)
        return true
      else return false

/-- The loop of `delete`: a root without separators gives way to its child. -/
def collapse : Nat → Nat → TreeM ν Nat
  | 0, _ => .fail .diverges
  | fuel + 1, root => do
    match ← loadNode root with
    | .internal [] children => collapse fuel (← at? children 0)
    | _ => return root

/-- `delete`: the root, and whether the key was there. -/
def delete (fuel root : Nat) (key : Int) : TreeM ν (Nat × Bool) := do
  if ← deleteRec fuel root key then return (← collapse fuel root, true)
  else return (root, false)

end BTree

/-! ### The pages as nodes -/

/-- A run that goes beyond what the pages say, or raises. -/
inductive Failure
  | stale
  | raised (e : PyError)
deriving DecidableEq

/-- The decoded pages; `stale` are the pages whose object was changed and not yet written. -/
structure Store (ν : Type) where
  nodes : Nat → Except PyError (Node ν)
  numPages : Nat
  stale : List Nat

section Store

variable {ν : Type} [TreeLink ν]

/-- A node as it is decoded after a write. -/
def Node.reread : Node ν → Node ν
  | .leaf cells next => .leaf cells (TreeLink.ofCode (Link.code next))
  | nd => nd

/-- `pager.write(n, nd.to_bytes())` raises when a number does not fit its field or the page overflows. -/
def Node.fits (nd : Node ν) : Except PyError Unit := do
  if pageSize < (← nd.toBytes).length then throw .valueError

namespace Store

def set (s : Store ν) (n : Nat) (nd : Node ν) : Store ν :=
  { nodes := Function.update s.nodes n (.ok nd.reread)
    numPages := max s.numPages (n + 1)
    stale := s.stale.filter (· ≠ n) }

/-- The store after `allocate`: the new page decodes as an empty leaf that links to page 0. -/
def grow (s : Store ν) : Store ν :=
  { nodes := Function.update s.nodes s.numPages (.ok (.leaf [] (TreeLink.ofCode 0)))
    numPages := s.numPages + 1
    stale := s.stale.filter (· ≠ s.numPages) }

end Store

def TreeM.run {α : Type} : TreeM ν α → EStateM Failure (Store ν) α
  | .pure a, s => .ok a s
  | .fail e, s => .error (.raised e) s
  | .load n k, s =>
    if n ∈ s.stale then .error .stale s
    else if s.numPages ≤ n ∧ n ≠ 0 then .error (.raised .indexError) s
    else
      match s.nodes n with
      | .ok nd => (k nd).run s
      | .error e => .error (.raised e) s
  | .mutate n _ k, s => k.run { s with stale := n :: s.stale }
  | .write n nd k, s =>
    match nd.fits with
    | .ok _ => k.run (s.set n nd)
    | .error e => .error (.raised e) s
  | .allocate k, s => (k s.numPages).run s.grow

end Store

end LeafDb
