import LeafDb.Base.Bisect
import LeafDb.Pager

/-!
# B+ tree nodes (`btree.py`, `native/src/core.cpp`)

A node as both engines decode it. The chain link of a leaf is kept as each engine keeps it: an optional
page number in Python, the raw number in C++ (`PageRef`), where `NO_PAGE` and page 0 both end the chain.
-/

namespace LeafDb

/-- `MAX_VALUE_SIZE`. -/
def maxValueSize : Nat := pageSize / 2

/-- `_NO_PAGE`. -/
def noPage : Nat := 0xFFFFFFFF

/-- What an engine does with the `next_leaf` field of a leaf. -/
class Link (ν : Type) where
  /-- The number written into the page. -/
  code : ν → Nat
  /-- The page a scan goes to next. -/
  follow : ν → Option Nat

instance : Link (Option Nat) := ⟨fun n => n.getD noPage, id⟩

/-- `next_leaf` of the C++ `LeafNode`. -/
structure PageRef where
  raw : Nat
deriving DecidableEq, Repr

instance : Link PageRef := ⟨PageRef.raw, fun n => if n.raw = noPage ∨ n.raw = 0 then none else some n.raw⟩

abbrev Cell := Int × Bytes

inductive Node (ν : Type)
  | leaf (cells : List Cell) (nextLeaf : ν)
  | internal (keys : List Int) (children : List Nat)
deriving DecidableEq, Repr

/-- A decoded node of the Python engine. -/
abbrev PyNode := Node (Option Nat)

/-- `ldb::Node`. -/
abbrev CNode := Node PageRef

/-! ### Encoding -/

/-- `struct.Struct(">q").pack`, `put_i64`. -/
def packI64 (k : Int) : Bytes := packBE 8 (k % 2 ^ 64).toNat

def IsI64 (k : Int) : Prop := -2 ^ 63 ≤ k ∧ k < 2 ^ 63

instance (k : Int) : Decidable (IsI64 k) := inferInstanceAs (Decidable (_ ∧ _))

def encodeCell (c : Cell) : Bytes := packI64 c.1 ++ packBE 4 c.2.length ++ c.2

namespace Node

variable {ν : Type} [Link ν]

/-- The bytes `to_bytes` builds; the C++ `put_u32` keeps the low 32 bits, as `packBE` does. -/
def encode : Node ν → Bytes
  | leaf cells next => 0 :: packBE 4 (Link.code next) ++ packBE 4 cells.length ++ cells.flatMap encodeCell
  | internal keys children =>
    1 :: packBE 4 keys.length ++ packBE 4 children.length ++ keys.flatMap packI64 ++ children.flatMap (packBE 4)

/-- Every number fits its field, so that `struct.pack` raises for none of them. -/
def Packable : Node ν → Prop
  | leaf cells next =>
    Link.code next < 2 ^ 32 ∧ cells.length < 2 ^ 32 ∧ ∀ c ∈ cells, IsI64 c.1 ∧ c.2.length < 2 ^ 32
  | internal keys children =>
    keys.length < 2 ^ 32 ∧ children.length < 2 ^ 32 ∧ (∀ k ∈ keys, IsI64 k) ∧ ∀ c ∈ children, c < 2 ^ 32

instance : ∀ nd : Node ν, Decidable nd.Packable
  | leaf _ _ => inferInstanceAs (Decidable (_ ∧ _))
  | internal _ _ => inferInstanceAs (Decidable (_ ∧ _))

/-- `Node.to_bytes` of the Python engine. -/
def toBytes (nd : Node ν) : Except PyError Bytes :=
  if nd.Packable then .ok nd.encode else .error .structError

/-- `Node.serialized_size`. -/
def serializedSize (nd : Node ν) : Except PyError Nat := do return (← nd.toBytes).length

end Node

/-! ### Decoding -/

/-- `struct.Struct(">q").unpack_from`, `get_i64`. -/
def unpackI64 (buf : Bytes) : Option (Int × Bytes) :=
  (readBE 8 0 buf).map fun p => (if p.1 < 2 ^ 63 then (p.1 : Int) else (p.1 : Int) - 2 ^ 64, p.2)

/-- `count` cells. A value that the page cuts off is shortened (a Python slice), unless `strict`: then
it is an error (the C++ decoder). -/
def readCells (strict : Bool) : Nat → Bytes → Option (List Cell)
  | 0, _ => some []
  | count + 1, buf => do
    let (k, buf) ← unpackI64 buf
    let (vlen, buf) ← readBE 4 0 buf
    if strict ∧ buf.length < vlen then none
    let cells ← readCells strict count (buf.drop vlen)
    return (k, buf.take vlen) :: cells

def readKeys : Nat → Bytes → Option (List Int × Bytes)
  | 0, buf => some ([], buf)
  | count + 1, buf => do
    let (k, buf) ← unpackI64 buf
    let (keys, buf) ← readKeys count buf
    return (k :: keys, buf)

def readChildren : Nat → Bytes → Option (List Nat)
  | 0, _ => some []
  | count + 1, buf => do
    let (c, buf) ← readBE 4 0 buf
    let children ← readChildren count buf
    return c :: children

/-- The body of a leaf page, after the kind byte. -/
def readLeaf (strict : Bool) (buf : Bytes) : Option (Nat × List Cell) := do
  let (next, buf) ← readBE 4 0 buf
  let (count, buf) ← readBE 4 0 buf
  let cells ← readCells strict count buf
  return (next, cells)

/-- The body of an internal page, after the kind byte. -/
def readInternal (buf : Bytes) : Option (List Int × List Nat) := do
  let (nk, buf) ← readBE 4 0 buf
  let (nc, buf) ← readBE 4 0 buf
  let (keys, buf) ← readKeys nk buf
  let children ← readChildren nc buf
  return (keys, children)

/-- `node_from_bytes` of the Python engine. -/
def nodeFromBytes : Bytes → Except PyError PyNode
  | [] => .error .indexError
  | kind :: buf =>
    if kind = 0 then
      match readLeaf false buf with
      | some (next, cells) => .ok (.leaf cells (if next = noPage then none else some next))
      | none => .error .structError
    else if kind = 1 then
      match readInternal buf with
      | some (keys, children) => .ok (.internal keys children)
      | none => .error .structError
    else .error .valueError

/-- `BTree::load` of the C++ engine after the read: a page is decoded as internal unless its first byte
says leaf, and each decoder checks the kind again. -/
def Native.nodeFromBytes : Bytes → Except PyError CNode
  | [] => .error .runtimeError
  | kind :: buf =>
    if kind = 0 then
      match readLeaf true buf with
      | some (next, cells) => .ok (.leaf cells ⟨next⟩)
      | none => .error .runtimeError
    else if kind = 1 then
      match readInternal buf with
      | some (keys, children) => .ok (.internal keys children)
      | none => .error .runtimeError
    else .error .runtimeError

/-! ### Reading a tree

The descent and the scan are the same code in both engines, up to the link of a leaf. A loop over
the pages takes `fuel`; `diverges` is the loop that does not end within it. -/

section Descent

variable {ν : Type} [Link ν] (load : Nat → Except PyError (Node ν))

/-- `node.children[i]`. -/
def childAt (children : List Nat) (i : Nat) : Except PyError Nat :=
  match children[i]? with
  | some c => .ok c
  | none => .error .indexError

/-- The value of `key` among the cells of a leaf. -/
def leafLookup (cells : List Cell) (key : Int) : Option Bytes :=
  match cells[bisectLeft (cells.map Prod.fst) key]? with
  | some c => if c.1 = key then some c.2 else none
  | none => none

/-- `search`. -/
def search : Nat → Nat → Int → Except PyError (Option Bytes)
  | 0, _, _ => .error .diverges
  | fuel + 1, n, key => do
    match ← load n with
    | .leaf cells _ => return leafLookup cells key
    | .internal keys children =>
      let c ← childAt children (bisectRight keys key)
      search fuel c key

/-- The leaf where `range_scan` starts. -/
def scanStart (lo : Option Int) : Nat → Nat → Except PyError Nat
  | 0, _ => .error .diverges
  | fuel + 1, n => do
    match ← load n with
    | .leaf _ _ => return n
    | .internal keys children =>
      let c ← childAt children (match lo with | none => 0 | some lo => bisectRight keys lo)
      scanStart lo fuel c

/-- The cells `range_scan` yields from one leaf, and whether it goes on to the next one. -/
def scanCells (lo hi : Option Int) : List Cell → List Cell × Bool
  | [] => ([], true)
  | (k, v) :: cells =>
    if lo.any (k < ·) then scanCells lo hi cells
    else if hi.any (k > ·) then ([], false)
    else
      let (out, more) := scanCells lo hi cells
      ((k, v) :: out, more)

def scanChain (lo hi : Option Int) : Nat → Nat → Except PyError (List Cell)
  | 0, _ => .error .diverges
  | fuel + 1, n => do
    match ← load n with
    | .internal _ _ => .error .attributeError
    | .leaf cells next =>
      let (out, more) := scanCells lo hi cells
      match more, Link.follow next with
      | true, some n => return out ++ (← scanChain lo hi fuel n)
      | _, _ => return out

/-- `range_scan`, as the list of what it yields. -/
def rangeScan (fuel root : Nat) (lo hi : Option Int) : Except PyError (List Cell) := do
  let n ← scanStart load lo fuel root
  scanChain load lo hi fuel n

end Descent

end LeafDb
