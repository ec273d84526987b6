/-
  Btrfs/Node.lean
  ===============
  **Tree nodes and the edits made inside one node** — the leaf primitives of `cow.go`
  and the leaf and internal-node splits of `btree_write.go`.

  A block is modelled by what its bytes decode to.  A leaf is its item descriptors,
  each with the bytes its data range holds; the descriptor's `dataOff` is kept because
  the room left in a leaf is computed from the lowest one.  This is exact for leaves
  whose data ranges lie in the block and do not overlap, which every leaf written by
  these functions satisfies.  An internal node is its key pointers.  Of the header we
  keep the fields a reader or a writer of the driver sets: `bytenr` and `generation`.
-/
import Btrfs.Basic

namespace Btrfs

/-- Size of the node header on disk. -/
def nodeHdrSize : Nat := 0x65

/-- key (17) + block pointer (8) + generation (8). -/
def keyPtrSize : Nat := 33

/-- key (17) + data offset (4) + data size (4). -/
def itemSize : Nat := 25

/-- Deepest level a descent follows, counted from the root. -/
def maxBtreeDepth : Nat := 64

/-- Most nodes one tree walk visits. -/
def maxTreeNodes : Nat := 1048576

abbrev Bytes := List UInt8

/-- One item of a leaf: its key, where its data starts (relative to the end of the
    header), and the data. -/
structure LeafItem where
  k : Key
  dataOff : Nat
  data : Bytes
  deriving DecidableEq, Repr

/-- The `(key, data)` pair an item stands for. -/
def LeafItem.kv (it : LeafItem) : Key × Bytes := (it.k, it.data)

@[simp] theorem LeafItem.kv_fst (it : LeafItem) : it.kv.1 = it.k := rfl

/-- A key pointer of an internal node. -/
structure KeyPtr where
  k : Key
  child : Nat
  gen : Nat
  deriving DecidableEq, Repr

structure NodeHdr where
  bytenr : Nat
  generation : Nat
  deriving DecidableEq, Repr

/-- A decoded block: a leaf (level 0), or an internal node of level `below + 1`. -/
inductive Node
  | leaf (hdr : NodeHdr) (items : List LeafItem)
  | internal (hdr : NodeHdr) (below : Nat) (ptrs : List KeyPtr)
  deriving DecidableEq, Repr

namespace Node

def level : Node → Nat
  | leaf _ _ => 0
  | internal _ b _ => b + 1

/-- The header fields `writeCowNode` overwrites before a block goes to disk. -/
def stamp (n : Node) (hdr : NodeHdr) : Node :=
  match n with
  | leaf _ items => leaf hdr items
  | internal _ b ptrs => internal hdr b ptrs

end Node

/-! ## 1. Editing a leaf -/

/-- Lay records out with their data packed backward from `cursor`. -/
def packFrom (cursor : Nat) : List (Key × Bytes) → List LeafItem
  | [] => []
  | (k, d) :: recs =>
    ⟨k, cursor - d.length - nodeHdrSize, d⟩ :: packFrom (cursor - d.length) recs

/-- The position of the first key after `k`. -/
def insertPos (recs : List (Key × Bytes)) (k : Key) : Nat :=
  recs.findIdx fun r => decide (0 < compareKeys r.1 k.objID k.typ k.offset)

/-- Where the data area begins: the lowest data offset in use. -/
def dataAreaEnd (nodeSize : Nat) (items : List LeafItem) : Nat :=
  items.foldl
    (fun acc it => if it.dataOff < acc - nodeHdrSize then nodeHdrSize + it.dataOff else acc)
    nodeSize

/-- Insert `(k, data)` at its sorted position and repack the data area. -/
def leafInsertItem (nodeSize : Nat) (items : List LeafItem) (k : Key) (data : Bytes) :
    Except Err (List LeafItem) :=
  let needed := itemSize + data.length
  let dataUsed := nodeSize - dataAreaEnd nodeSize items
  let headerUsed := nodeHdrSize + items.length * itemSize
  let free : Int := nodeSize - headerUsed - dataUsed
  if free < needed then
    .error (.wrap "%w (need %d, have %d free)" [.num needed, .num free] (.sentinel .errLeafFull))
  else
    let recs := items.map LeafItem.kv
    .ok (packFrom nodeSize (recs.insertIdx (insertPos recs k) (k, data)))

/-- Replace the data of the item at `idx`; a change of size rebuilds the data area. -/
def leafReplaceItemData (nodeSize : Nat) (items : List LeafItem) (idx : Nat) (newData : Bytes) :
    Except Err (List LeafItem) :=
  match items[idx]? with
  | none => .ok items
  | some it =>
    let delta : Int := newData.length - it.data.length
    if delta = 0 then .ok (items.set idx { it with data := newData })
    else
      let dataUsed := (items.map fun it => it.data.length).sum
      let free : Int := nodeSize - nodeHdrSize - items.length * itemSize - dataUsed
      if free < delta then
        .error (.errorf "btrfs: not enough space to expand item (%d vs %d free)"
          [.num delta, .num free])
      else .ok (packFrom nodeSize ((items.map LeafItem.kv).set idx (it.k, newData)))

/-- Remove the item at `idx`; data lying below the freed range moves up over it. -/
def leafDeleteItem (items : List LeafItem) (idx : Nat) : List LeafItem :=
  match items[idx]? with
  | none => items
  | some del =>
    (items.eraseIdx idx).map fun it =>
      if it.dataOff < del.dataOff then { it with dataOff := it.dataOff + del.data.length } else it

/-- Index of the first item with exactly this key. -/
def findItemIdx (items : List LeafItem) (objID typ offset : Nat) : Option Nat :=
  items.findIdx? fun it => decide (it.k.objID = objID ∧ it.k.typ = typ ∧ it.k.offset = offset)

/-- The item's objectid and type are the given ones. -/
def LeafItem.hasPrefix (objID typ : Nat) (it : LeafItem) : Bool :=
  decide (it.k.objID = objID ∧ it.k.typ = typ)

/-- Indexes of all items with this objectid and type. -/
def findItemIdxPrefix (items : List LeafItem) (objID typ : Nat) : List Nat :=
  items.findIdxs (LeafItem.hasPrefix objID typ)

/-! ## 2. Splitting a leaf -/

/-- Lay `items` out in a fresh leaf, checking before each one that it still fits. `i` items
    have been placed, and the data area begins at `writePtr`. -/
def buildLeafFrom (nodeSize : Nat) : Nat → Nat → List (Key × Bytes) → Except Err (List LeafItem)
  | _, _, [] => .ok []
  | i, writePtr, (k, d) :: recs =>
    let used := nodeHdrSize + (i + 1) * itemSize + (nodeSize - writePtr)
    if nodeSize < used + d.length then
      .error (.errorf "btrfs split: leaf cannot hold item %d (need %d, avail %d)"
        [.num i, .num (itemSize + d.length : Nat),
          .num ((nodeSize : Int) - used - d.length)])
    else
      match buildLeafFrom nodeSize (i + 1) (writePtr - d.length) recs with
      | .error e => .error e
      | .ok rest => .ok (⟨k, writePtr - d.length - nodeHdrSize, d⟩ :: rest)

def buildLeafFromItems (nodeSize : Nat) (items : List (Key × Bytes)) :
    Except Err (List LeafItem) :=
  buildLeafFrom nodeSize 0 nodeSize items

/-- The scan for the split point: the first prefix holding at least `target` data bytes. -/
def scanSplit (target : Nat) : Nat → Nat → List (Key × Bytes) → Nat
  | _, _, [] => 1
  | cum, i, r :: recs =>
    if target ≤ cum + r.2.length then i + 1 else scanSplit target (cum + r.2.length) (i + 1) recs

/-- Where to cut: about half of the data bytes on each side. -/
def splitPoint (all : List (Key × Bytes)) : Nat :=
  let target := (all.map fun r => r.2.length).sum / 2
  let split := max 1 (scanSplit target 0 0 all.dropLast)
  if all.length - 1 < split then all.length - 1 else split

/-- The key of the first record; the split makes sure there is one. -/
def firstKey (recs : List (Key × Bytes)) : Key := (recs.head?.map (·.1)).getD ⟨0, 0, 0⟩

/-- Two leaves that together hold the items and `(k, data)`, and the first key of the right
    one. -/
def splitAndInsertLeaf (nodeSize : Nat) (items : List LeafItem) (k : Key) (data : Bytes) :
    Except Err (List LeafItem × List LeafItem × Key) := do
  let recs := items.map LeafItem.kv
  let all := recs.insertIdx (insertPos recs k) (k, data)
  let split := splitPoint all
  let left ← buildLeafFromItems nodeSize (all.take split)
  let right ← buildLeafFromItems nodeSize (all.drop split)
  if nodeSize - nodeHdrSize < itemSize + data.length then
    throw (.errorf "btrfs split: item too large for empty leaf (size=%d, max=%d)"
      [.num data.length, .num ((nodeSize : Int) - nodeHdrSize - itemSize)])
  return (left, right, firstKey (all.drop split))

/-! ## 3. Editing an internal node -/

/-- Remove the key pointer at `idx`, closing the gap. -/
def internalRemoveKeyPtr (ptrs : List KeyPtr) (idx : Nat) : List KeyPtr := ptrs.eraseIdx idx

/-- One more key pointer fits in the block. -/
def internalCanFitOneMore (nodeSize : Nat) (ptrs : List KeyPtr) : Bool :=
  decide (nodeHdrSize + ptrs.length * keyPtrSize + keyPtrSize ≤ nodeSize)

def internalInsertKeyPtr (ptrs : List KeyPtr) (idx : Nat) (kp : KeyPtr) : List KeyPtr :=
  ptrs.insertIdx idx kp

/-- Split a full internal node around a new key pointer: the two halves and the first key of
    the right one. -/
def splitAndInsertInternal (ptrs : List KeyPtr) (idx : Nat) (kp : KeyPtr) :
    List KeyPtr × List KeyPtr × Key :=
  let all := ptrs.insertIdx idx kp
  let split := max 1 (all.length / 2)
  (all.take split, all.drop split, ((all.drop split).head?.map (·.k)).getD ⟨0, 0, 0⟩)

end Btrfs
