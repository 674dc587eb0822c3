import LeafDb.Node

/-!
# Encoding and decoding a node (`btree.py`, `native/src/core.cpp`)

`Native.toBytes` is the encoder of the C++ engine, with its shifts; the two decoders differ in what they do
with a value that the page cuts off. On a node that fits a page both engines write the same bytes and read
the node back.
-/

namespace LeafDb

theorem unpackI64_packI64 {k : Int} (hk : IsI64 k) (rest : Bytes) :
    unpackI64 (packI64 k ++ rest) = some (k, rest) := by
  obtain ⟨hlo, hhi⟩ := hk
  have hbound : (k % 2 ^ 64).toNat < 256 ^ 8 := by omega
  rw [unpackI64, packI64, readBE_packBE _ _ _ _ hbound]
  simp only [Option.map_some, Option.some.injEq, Prod.mk.injEq, and_true]
  split <;> omega

/-! ### The C++ encoder -/

namespace Native

/-- `put_u32`. -/
def putU32 (v : UInt32) : Bytes := [(v >>> 24).toUInt8, (v >>> 16).toUInt8, (v >>> 8).toUInt8, v.toUInt8]

/-- `put_i64`: the bytes of `uint64_t(v)`. -/
def putI64 (v : Int) : Bytes :=
  let u := UInt64.ofNat (v % 2 ^ 64).toNat
  [(u >>> 56).toUInt8, (u >>> 48).toUInt8, (u >>> 40).toUInt8, (u >>> 32).toUInt8, (u >>> 24).toUInt8, (u >>> 16).toUInt8,
    (u >>> 8).toUInt8, u.toUInt8]

/-- `to_bytes`. -/
def toBytes : CNode → Bytes
  | .leaf cells next =>
    0 :: putU32 (.ofNat next.raw) ++ putU32 (.ofNat cells.length) ++
      cells.flatMap fun c => putI64 c.1 ++ putU32 (.ofNat c.2.length) ++ c.2
  | .internal keys children =>
    1 :: putU32 (.ofNat keys.length) ++ putU32 (.ofNat children.length) ++ keys.flatMap putI64 ++
      children.flatMap fun c => putU32 (.ofNat c)

theorem putU32_ofNat (v : Nat) : putU32 (.ofNat v) = packBE 4 v := by
  simp only [putU32, packBE, List.nil_append, List.cons_append, List.cons.injEq, and_true]
  refine ⟨?_, ?_, ?_, ?_⟩ <;>
  · apply UInt8.toNat_inj.1
    simp [Nat.shiftRight_eq_div_pow]
    try omega

theorem putI64_eq (v : Int) : putI64 v = packI64 v := by
  simp only [putI64, packI64, packBE, List.nil_append, List.cons_append, List.cons.injEq, and_true]
  generalize (v % 2 ^ 64).toNat = u
  refine ⟨?_, ?_, ?_, ?_, ?_, ?_, ?_, ?_⟩ <;>
  · apply UInt8.toNat_inj.1
    simp [Nat.shiftRight_eq_div_pow]
    try omega

/-- The two engines write the same bytes. -/
theorem toBytes_eq_encode (nd : CNode) : toBytes nd = nd.encode := by
  rcases nd with ⟨cells, next⟩ | ⟨keys, children⟩
  · simp only [toBytes, Node.encode, putU32_ofNat, putI64_eq]
    rfl
  · simp only [toBytes, Node.encode, putU32_ofNat]
    rw [List.flatMap_congr fun k _ => putI64_eq k]

end Native

/-! ### Sizes -/

/-- The bytes the cells of a leaf take. -/
def cellsSize (cells : List Cell) : Nat := (cells.map fun c => 12 + c.2.length).sum

@[simp] theorem cellsSize_nil : cellsSize [] = 0 := rfl

@[simp] theorem cellsSize_cons (c : Cell) (cells : List Cell) : cellsSize (c :: cells) = 12 + c.2.length + cellsSize cells := rfl

@[simp] theorem cellsSize_append (cells cells' : List Cell) : cellsSize (cells ++ cells') = cellsSize cells + cellsSize cells' := by
  simp [cellsSize]

theorem length_le_cellsSize (cells : List Cell) : 12 * cells.length ≤ cellsSize cells := by
  induction cells with
  | nil => exact le_rfl
  | cons c cells ih =>
    rw [cellsSize_cons, List.length_cons]
    omega

theorem value_le_cellsSize {cells : List Cell} {c : Cell} (hc : c ∈ cells) : 12 + c.2.length ≤ cellsSize cells :=
  List.single_le_sum (by simp) _ (List.mem_map_of_mem hc)

theorem length_flatMap_encodeCell (cells : List Cell) : (cells.flatMap encodeCell).length = cellsSize cells := by
  rw [List.length_flatMap]
  congr 1
  refine List.map_congr_left fun c _ => ?_
  simp only [encodeCell, packI64, List.length_append, length_packBE]

section Length

variable {ν : Type} [Link ν]

theorem length_encode_leaf (cells : List Cell) (next : ν) : (Node.leaf cells next).encode.length = 9 + cellsSize cells := by
  simp only [Node.encode, List.length_append, List.length_cons, length_packBE, length_flatMap_encodeCell]

theorem length_encode_internal (keys : List Int) (children : List Nat) :
    (Node.internal keys children : Node ν).encode.length = 9 + 8 * keys.length + 4 * children.length := by
  have hk : (keys.flatMap packI64).length = 8 * keys.length := by
    simp [List.length_flatMap, packI64, mul_comm]
  have hc : (children.flatMap (packBE 4)).length = 4 * children.length := by
    simp [List.length_flatMap, mul_comm]
  simp only [Node.encode, List.length_append, List.length_cons, length_packBE, hk, hc]

end Length

/-! ### Decoding what was encoded -/

theorem readCells_encode {strict : Bool} {cells : List Cell} (hk : ∀ c ∈ cells, IsI64 c.1 ∧ c.2.length < 2 ^ 32) (rest : Bytes) :
    readCells strict cells.length (cells.flatMap encodeCell ++ rest) = some cells := by
  induction cells with
  | nil => rfl
  | cons c cells ih =>
    obtain ⟨hc, hlen⟩ := hk c (by simp)
    have hrest := ih fun c hc => hk c (List.mem_cons_of_mem _ hc)
    rw [List.length_cons, readCells, List.flatMap_cons, encodeCell]
    simp only [List.append_assoc]
    rw [unpackI64_packI64 hc]
    simp only [Option.bind_eq_bind, Option.bind_some]
    rw [readBE_packBE _ _ _ _ (by omega)]
    simp [hrest]

theorem readKeys_encode {keys : List Int} (hk : ∀ k ∈ keys, IsI64 k) (rest : Bytes) :
    readKeys keys.length (keys.flatMap packI64 ++ rest) = some (keys, rest) := by
  induction keys with
  | nil => rfl
  | cons k keys ih =>
    have hrest := ih fun k hk' => hk k (List.mem_cons_of_mem _ hk')
    rw [List.length_cons, readKeys, List.flatMap_cons, List.append_assoc, unpackI64_packI64 (hk k (by simp))]
    simp [hrest]

theorem readChildren_encode {children : List Nat} (hc : ∀ c ∈ children, c < 2 ^ 32) (rest : Bytes) :
    readChildren children.length (children.flatMap (packBE 4) ++ rest) = some children := by
  induction children with
  | nil => rfl
  | cons c children ih =>
    have hrest := ih fun c hc' => hc c (List.mem_cons_of_mem _ hc')
    have hlt : c < 256 ^ 4 := hc c (by simp)
    rw [List.length_cons, readChildren, List.flatMap_cons, List.append_assoc, readBE_packBE _ _ _ _ hlt]
    simp [hrest]

theorem readLeaf_encode {strict : Bool} {n : Nat} {cells : List Cell} (hn : n < 2 ^ 32) (hlen : cells.length < 2 ^ 32)
    (hk : ∀ c ∈ cells, IsI64 c.1 ∧ c.2.length < 2 ^ 32) (rest : Bytes) :
    readLeaf strict (packBE 4 n ++ (packBE 4 cells.length ++ (cells.flatMap encodeCell ++ rest))) = some (n, cells) := by
  rw [readLeaf, readBE_packBE _ _ _ _ (show n < 256 ^ 4 by omega)]
  simp only [Option.bind_eq_bind, Option.bind_some]
  rw [readBE_packBE _ _ _ _ (show cells.length < 256 ^ 4 by omega)]
  simp [readCells_encode hk]

theorem readInternal_encode {keys : List Int} {children : List Nat} (hkl : keys.length < 2 ^ 32)
    (hcl : children.length < 2 ^ 32) (hk : ∀ k ∈ keys, IsI64 k) (hc : ∀ c ∈ children, c < 2 ^ 32) (rest : Bytes) :
    readInternal (packBE 4 keys.length ++ (packBE 4 children.length ++ (keys.flatMap packI64 ++
      (children.flatMap (packBE 4) ++ rest)))) = some (keys, children) := by
  rw [readInternal, readBE_packBE _ _ _ _ (show keys.length < 256 ^ 4 by omega)]
  simp only [Option.bind_eq_bind, Option.bind_some]
  rw [readBE_packBE _ _ _ _ (show children.length < 256 ^ 4 by omega)]
  simp [readKeys_encode hk, readChildren_encode hc]

/-- A packable node is read back by both decoders, up to the link of a leaf. -/
theorem nodeFromBytes_encode {nd : PyNode} (hp : nd.Packable) (rest : Bytes) :
    nodeFromBytes (nd.encode ++ rest) = .ok (match nd with
      | .leaf cells next => .leaf cells (if Link.code next = noPage then none else some (Link.code next))
      | nd => nd) := by
  rcases nd with ⟨cells, next⟩ | ⟨keys, children⟩
  · obtain ⟨hn, hlen, hk⟩ := hp
    simp only [Node.encode, List.append_assoc, List.cons_append, nodeFromBytes, if_true, readLeaf_encode hn hlen hk]
  · obtain ⟨hkl, hcl, hk, hc⟩ := hp
    simp only [Node.encode, List.append_assoc, List.cons_append, nodeFromBytes, readInternal_encode hkl hcl hk hc]
    rfl

theorem Native.nodeFromBytes_encode {nd : CNode} (hp : nd.Packable) (rest : Bytes) :
    Native.nodeFromBytes (nd.encode ++ rest) = .ok nd := by
  rcases nd with ⟨cells, next⟩ | ⟨keys, children⟩
  · obtain ⟨hn, hlen, hk⟩ := hp
    simp only [Node.encode, List.append_assoc, List.cons_append, Native.nodeFromBytes, if_true, readLeaf_encode hn hlen hk]
    rfl
  · obtain ⟨hkl, hcl, hk, hc⟩ := hp
    simp only [Node.encode, List.append_assoc, List.cons_append, Native.nodeFromBytes, readInternal_encode hkl hcl hk hc]
    rfl

/-! ### The round trip -/

namespace Node

/-- The same node in the C++ engine. -/
def native : PyNode → CNode
  | leaf cells next => leaf cells ⟨Link.code next⟩
  | internal keys children => internal keys children

/-- Keys are 64-bit integers and pages 32-bit numbers; the number `NO_PAGE` is no page to go to next. -/
def Numbered : PyNode → Prop
  | leaf cells next => (∀ c ∈ cells, IsI64 c.1) ∧ ∀ n ∈ next, n < noPage
  | internal keys children => (∀ k ∈ keys, IsI64 k) ∧ ∀ c ∈ children, c < 2 ^ 32

theorem encode_native (nd : PyNode) : nd.native.encode = nd.encode := by
  rcases nd with ⟨cells, next⟩ | ⟨keys, children⟩ <;> rfl

theorem packable_native (nd : PyNode) : nd.native.Packable ↔ nd.Packable := by
  rcases nd with ⟨cells, next⟩ | ⟨keys, children⟩ <;> exact Iff.rfl

/-- On a page nothing else can be out of range. -/
theorem Numbered.packable {nd : PyNode} (h : nd.Numbered) (hfit : nd.encode.length ≤ pageSize) : nd.Packable := by
  rcases nd with ⟨cells, next⟩ | ⟨keys, children⟩
  · rw [length_encode_leaf, pageSize] at hfit
    have hlen := length_le_cellsSize cells
    refine ⟨?_, by omega, fun c hc => ⟨h.1 c hc, ?_⟩⟩
    · rcases next with _ | n
      · decide
      · have := h.2 n rfl
        simp only [Link.code, Option.getD_some, noPage] at this ⊢
        omega
    · have := value_le_cellsSize hc
      omega
  · rw [length_encode_internal, pageSize] at hfit
    exact ⟨by omega, by omega, h.1, h.2⟩

/-- Both engines write the same page for a node, and both read the node back from it. -/
theorem codec {nd : PyNode} (h : nd.Numbered) (hfit : nd.encode.length ≤ pageSize) :
    nd.toBytes = .ok (Native.toBytes nd.native) ∧
      nodeFromBytes (padTo pageSize (Native.toBytes nd.native)) = .ok nd ∧
        Native.nodeFromBytes (padTo pageSize (Native.toBytes nd.native)) = .ok nd.native := by
  have hp := h.packable hfit
  rw [Native.toBytes_eq_encode, encode_native]
  refine ⟨if_pos hp, ?_, ?_⟩
  · rw [padTo, nodeFromBytes_encode hp]
    rcases nd with ⟨cells, _ | n⟩ | ⟨keys, children⟩
    · rfl
    · have hn : n ≠ noPage := (h.2 n rfl).ne
      simp [Link.code, hn]
    · rfl
  · rw [padTo, ← encode_native, Native.nodeFromBytes_encode ((packable_native nd).2 hp)]

theorem codec_leaf : (Node.leaf [(-7, [1, 2]), (3, [])] (some 5) : PyNode).toBytes =
      .ok (Native.toBytes (.leaf [(-7, [1, 2]), (3, [])] ⟨5⟩)) ∧
    nodeFromBytes (padTo pageSize (Native.toBytes (.leaf [(-7, [1, 2]), (3, [])] ⟨5⟩))) =
      .ok (.leaf [(-7, [1, 2]), (3, [])] (some 5)) ∧
    Native.nodeFromBytes (padTo pageSize (Native.toBytes (.leaf [(-7, [1, 2]), (3, [])] ⟨5⟩))) =
      .ok (.leaf [(-7, [1, 2]), (3, [])] ⟨5⟩) :=
  @codec (.leaf [(-7, [1, 2]), (3, [])] (some 5)) ⟨by decide, by decide⟩ (by decide)

end Node

end LeafDb
