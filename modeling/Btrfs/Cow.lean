/-
  Btrfs/Cow.lean
  ==============
  **Copy-on-write mutation of a B-tree** — `btree_write.go`.

  A mutation traces the path to the routed leaf, writes an edited copy of the leaf to a
  fresh block, and copies every node of the path up to the root with the changed child
  pointer.  A leaf left empty is dropped with its key pointer, and the drop moves up
  through nodes that lose their last child; a leaf that overflows is split, and the
  split moves up through full nodes.  The old path is returned to the free list once a
  new root exists.

  The upward loops run over the path from the leaf to the root; here they recurse over
  the path from the root down and do their work on the way back.
-/
import Btrfs.BTree

namespace Btrfs

open Lib

/-- Return the blocks of these nodes to the free list, in order. -/
def freeNodes (sb : Superblock) (v : Vol) (addrs : List Nat) : Vol := addrs.foldl (freeNode sb) v

/-- The blocks `freedOld` lists: the old leaf, then the old internal nodes upward. -/
def Trace.oldNodes (t : Trace) : List Nat := t.leafLog :: (t.inner.map PathEntry.logAddr).reverse

/-- Point the followed child slot at a new block. -/
def PathEntry.setChild (sb : Superblock) (pe : PathEntry) (child : Nat) : List KeyPtr :=
  pe.ptrs.modify pe.childIdx fun p => { p with child := child, gen := sb.generation + 1 }

/-- Write a copy of a path node with these key pointers. -/
def PathEntry.write (sb : Superblock) (pe : PathEntry) (ptrs : List KeyPtr) : VolM Nat :=
  wrapErr (.wrap "btrfs cow: write internal node: %w" [])
    (writeCowNode sb (.internal pe.hdr pe.below ptrs))

/-! ## 1. Edits that do not overflow -/

/-- What the climb from the leaf hands to the next node: its new child, the news that the child
    was dropped, or the new root when the root itself collapsed. -/
inductive Climbed
  | child (log : Nat)
  | gone
  | collapsed (log : Nat)
  deriving DecidableEq, Repr

/-- The upward loop of `cowMutate` over a path, root first. -/
def cowClimb (sb : Superblock) : Bool → List PathEntry → Climbed → VolM Climbed
  | _, [], start => pure start
  | isRoot, pe :: deeper, start => do
    match ← cowClimb sb false deeper start with
    | .gone =>
      let ptrs := internalRemoveKeyPtr pe.ptrs pe.childIdx
      if ptrs.isEmpty && !isRoot then
        return .gone
      else if isRoot && ptrs.length == 1 then
        return .collapsed (childAt ptrs 0)
      else
        return .child (← pe.write sb ptrs)
    | .child log => return .child (← pe.write sb (pe.setChild sb log))
    | .collapsed log => return .collapsed log

/-- When the root has exactly two children, both leaves, and their items fit in one leaf, merge
    them; otherwise, or when no block is left for the merged leaf, keep the root. -/
def tryCollapseTwoLeafRoot (sb : Superblock) (root : Nat) : VolM Nat := fun v =>
  match readNode sb v.dev root with
  | .ok (.internal _ 0 [l, r]) =>
    match readNode sb v.dev l.child, readNode sb v.dev r.child with
    | .ok (.leaf hdr left), .ok (.leaf _ right) =>
      let combined := (left ++ right).map LeafItem.kv
      let dataSum := (combined.map fun s => s.2.length).sum
      if sb.nodeSize < nodeHdrSize + combined.length * itemSize + dataSum then .ok root v
      else
        match buildLeafFromItems sb.nodeSize combined with
        | .error _ => .ok root v
        | .ok merged =>
          match writeCowNode sb (.leaf hdr merged) v with
          | .error _ v => .ok root v
          | .ok mergedLog v => .ok mergedLog (freeNodes sb v [root, l.child, r.child])
    | _, _ => .ok root v
  | _ => .ok root v

/-- Write the edited leaf; an empty one is dropped unless it is the only node of the tree. -/
def cowLeaf (sb : Superblock) (path : Trace) (items : List LeafItem) : VolM Climbed :=
  if items.isEmpty && !path.inner.isEmpty then pure .gone
  else do
    let log ← wrapErr (.wrap "btrfs cow: write leaf: %w" [])
      (writeCowNode sb (.leaf path.leafHdr items))
    return .child log

/-- Apply `fn` to a copy of the leaf the key is routed to and copy the path above it; the result
    is the new root. -/
def cowMutate (sb : Superblock) (root : Nat) (routeKey : Key)
    (fn : List LeafItem → Except Err (List LeafItem)) : VolM Nat := do
  let v ← get
  let path ← fromExcept (tracePath sb v.dev root routeKey)
  let items ← fromExcept (fn path.items)
  let start ← cowLeaf sb path items
  let top ← cowClimb sb true path.inner start
  modify fun v => freeNodes sb v path.oldNodes
  match top with
  | .collapsed log => return log
  | .gone =>
    wrapErr (.wrap "btrfs cow: write replacement empty leaf: %w" [])
      (writeCowNode sb (.leaf path.leafHdr []))
  | .child log => tryCollapseTwoLeafRoot sb log

/-! ## 2. Splitting -/

/-- The state of the upward loop of `cowInsertSplit`: the new child, and the key pointer that
    still has to be placed beside it. -/
structure SplitUp where
  child : Nat
  pending : Option (Key × Nat)
  deriving DecidableEq, Repr

/-- The upward loop of `cowInsertSplit` over a path, root first. -/
def cowSplitClimb (sb : Superblock) : List PathEntry → SplitUp → VolM SplitUp
  | [], start => pure start
  | pe :: deeper, start => do
    let up ← cowSplitClimb sb deeper start
    let ptrs := pe.setChild sb up.child
    match up.pending with
    | none => return ⟨← pe.write sb ptrs, none⟩
    | some (pendingKey, pendingChild) =>
      let kp : KeyPtr := ⟨pendingKey, pendingChild, sb.generation + 1⟩
      if internalCanFitOneMore sb.nodeSize ptrs then
        return ⟨← pe.write sb (internalInsertKeyPtr ptrs (pe.childIdx + 1) kp), none⟩
      else
        let (left, right, splitKey) := splitAndInsertInternal ptrs (pe.childIdx + 1) kp
        let leftLog ← wrapErr (.wrap "btrfs cow split: write left internal: %w" [])
          (writeCowNode sb (.internal pe.hdr pe.below left))
        let rightLog ← wrapErr (.wrap "btrfs cow split: write right internal: %w" [])
          (writeCowNode sb (.internal pe.hdr pe.below right))
        return ⟨leftLog, some (splitKey, rightLog)⟩

/-- A new internal root over two nodes; the left key is read from the left node. -/
def buildNewRoot (sb : Superblock) (dev : Device) (leftLog : Nat) (rightKey : Key)
    (rightLog : Nat) (depth : Nat) : Except Err Node := do
  let left ← readNode sb dev leftLog
  let root (hdr : NodeHdr) (leftKey : Key) : Node :=
    .internal hdr (depth - 1)
      [⟨leftKey, leftLog, sb.generation + 1⟩, ⟨rightKey, rightLog, sb.generation + 1⟩]
  match left with
  | .leaf _ [] => throw (.errorf "left leaf is empty" [])
  | .leaf hdr (it :: _) => return root hdr it.k
  | .internal hdr _ ptrs => return root hdr ((ptrs.head?.map KeyPtr.k).getD ⟨0, 0, 0⟩)

/-- The root after the climb: the copy of the old one, or a new one above it when a key pointer is
    still pending. -/
def cowGrowRoot (sb : Superblock) (pathLen : Nat) (up : SplitUp) : VolM Nat :=
  match up.pending with
  | none => pure up.child
  | some (pendingKey, pendingChild) => do
    let v ← get
    let n ← wrapErr (.wrap "btrfs cow split: build new root: %w" [])
      (fromExcept (buildNewRoot sb v.dev up.child pendingKey pendingChild pathLen))
    wrapErr (.wrap "btrfs cow split: write new root: %w" []) (writeCowNode sb n)

/-- Split the routed leaf around the new item and carry the new key pointer up the path. -/
def cowInsertSplit (sb : Superblock) (root : Nat) (k : Key) (data : Bytes) : VolM Nat := do
  let v ← get
  let path ← fromExcept (tracePath sb v.dev root k)
  let (left, right, splitKey) ← wrapErr (.wrap "btrfs cow split: %w" [])
    (fromExcept (splitAndInsertLeaf sb.nodeSize path.items k data))
  let leftLog ← wrapErr (.wrap "btrfs cow split: write left leaf: %w" [])
    (writeCowNode sb (.leaf path.leafHdr left))
  let rightLog ← wrapErr (.wrap "btrfs cow split: write right leaf: %w" [])
    (writeCowNode sb (.leaf path.leafHdr right))
  let up ← cowSplitClimb sb path.inner ⟨leftLog, some (splitKey, rightLog)⟩
  let rootLog ← cowGrowRoot sb (path.inner.length + 1) up
  modify fun v => freeNodes sb v path.oldNodes
  return rootLog

/-! ## 3. The operations -/

/-- Insert `(k, data)`, splitting the leaf when it is full. -/
def cowInsert (sb : Superblock) (root : Nat) (k : Key) (data : Bytes) : VolM Nat := fun v =>
  match cowMutate sb root k (fun items => leafInsertItem sb.nodeSize items k data) v with
  | .ok newRoot v => .ok newRoot v
  | .error e v => if e.is .errLeafFull then cowInsertSplit sb root k data v else .error e v

/-- Replace the data of the item with key `k`. -/
def cowUpdate (sb : Superblock) (root : Nat) (k : Key) (newData : Bytes) : VolM Nat :=
  cowMutate sb root k fun items =>
    match findItemIdx items k.objID k.typ k.offset with
    | none => .error (.errorf "btrfs cow update: key (%d 0x%02X %d) not found"
        [.num k.objID, .num k.typ, .num k.offset])
    | some idx => leafReplaceItemData sb.nodeSize items idx newData

/-- Remove the item with key `k`. -/
def cowDelete (sb : Superblock) (root : Nat) (k : Key) : VolM Nat :=
  cowMutate sb root k fun items =>
    match findItemIdx items k.objID k.typ k.offset with
    | none => .error (.wrap "btrfs cow delete: key (%d 0x%02X %d): %w"
        [.num k.objID, .num k.typ, .num k.offset] (.sentinel .errNotFound))
    | some idx => .ok (leafDeleteItem items idx)

/-- Delete every matching item of one leaf, from the last to the first. -/
def leafDeletePrefix (objID typ : Nat) (items : List LeafItem) : Except Err (List LeafItem) :=
  let idx := findItemIdxPrefix items objID typ
  let items := idx.reverse.foldl leafDeleteItem items
  if idx.isEmpty then
    .error (.errorf "btrfs cow delete prefix: routed to leaf with no (%d 0x%02X) items"
      [.num objID, .num typ])
  else .ok items

/-- Remove all items with this objectid and type, one leaf a pass.  The loop of the source has no
    bound of its own: `passes` is for the recursion, and anything above the number of items will
    do. -/
def cowDeletePrefix (sb : Superblock) (objID typ : Nat) : Nat → Nat → VolM Nat
  | 0, _ => throw (.errorf "out of passes" [])
  | passes + 1, root => do
    let v ← get
    match ← fromExcept (findLeafContainingPrefix sb v.dev root objID typ) with
    | none => return root
    | some _ =>
      let newRoot ← cowMutate sb root ⟨objID, typ, 0⟩ (leafDeletePrefix objID typ)
      cowDeletePrefix sb objID typ passes newRoot

end Btrfs
