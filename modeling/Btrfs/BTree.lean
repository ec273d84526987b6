/-
  Btrfs/BTree.lean
  ================
  **Reading a B-tree** — the descents and walks of `btree.go`, `chunk.go`, `alloc.go` and
  `btree_write.go`.

  Every walk carries the defences of the driver against hostile geometry: a bound on
  the depth, a bound on the number of nodes, and the set of addresses already visited.
  A loop that these bounds stop is modelled by recursion on what is left of the bound.

  The callbacks a walk is given never touch the device, so a walk is modelled by the
  sequence of things it hands to its callback, together with the error that stopped it
  if one did; a caller folds over that sequence.
-/
import Btrfs.Device

namespace Btrfs

open Lib

/-! ## 1. Errors of the walks -/

def errDepth (what : String) : Err :=
  .wrap (what ++ " depth exceeds %d: %w") [.num maxBtreeDepth] (.sentinel .errLoopLimit)

/-- The node-count guard, or the visit set, of the named function refused to go on. -/
def errGuard (fn : String) : Err := .wrap ("btrfs: " ++ fn ++ ": %w") [] (.sentinel .errLoopLimit)

def errKeyNotFound (k : Key) : Err :=
  .wrap "btrfs: key (%d %02X %d): %w" [.num k.objID, .num k.typ, .num k.offset]
    (.sentinel .errNotFound)

/-! ## 2. Descents -/

/-- The leading run of key pointers that do not exceed the key. -/
def ptrRun (ptrs : List KeyPtr) (k : Key) : List KeyPtr :=
  ptrs.takeWhile fun p => decide (compareKeys p.k k.objID k.typ k.offset ≤ 0)

theorem ptrRun_eq (ptrs : List KeyPtr) (k : Key) :
    ptrRun ptrs k = ptrs.takeWhile fun p => decide (p.k ≤ k) := by
  rw [ptrRun]
  congr 1
  funext p
  exact decide_eq_decide.mpr compareKeys_le_zero

/-- Search the tree for exactly this key.  `prevLevel` is the level of the parent. -/
def searchFrom (sb : Superblock) (dev : Device) (k : Key) :
    Nat → List Nat → Option Nat → Nat → Except Err LeafItem
  | 0, _, _, _ => .error (errDepth "btrfs: btree")
  | d + 1, seen, prevLevel, logAddr =>
    if logAddr ∈ seen then .error (errGuard "searchTree")
    else
      match readNode sb dev logAddr with
      | .error e => .error e
      | .ok n =>
        if prevLevel.any fun l => decide (n.level + 1 ≠ l) then
          .error (.wrap "btrfs: searchTree: child level %d not %d below parent: %w"
            [.num n.level, .num 1] (.sentinel .errNotFound))
        else
          match n with
          | .leaf _ items =>
            match items.find? fun it => decide (it.k = k) with
            | some it => .ok it
            | none => .error (errKeyNotFound k)
          | .internal _ _ ptrs =>
            match (ptrRun ptrs k).getLast? with
            | none => .error (errKeyNotFound k)
            | some p =>
              if p.child = 0 then .error (errKeyNotFound k)
              else searchFrom sb dev k d (logAddr :: seen) (some n.level) p.child

def searchTree (sb : Superblock) (dev : Device) (root : Nat) (k : Key) : Except Err LeafItem :=
  searchFrom sb dev k (maxBtreeDepth + 1) [] none root

/-- An internal node on the path from the root to a leaf, and the child that was followed. -/
structure PathEntry where
  logAddr : Nat
  hdr : NodeHdr
  below : Nat
  ptrs : List KeyPtr
  childIdx : Nat
  deriving DecidableEq, Repr

/-- A path from the root to a leaf: the internal nodes from the root down, and the leaf. -/
structure Trace where
  inner : List PathEntry
  leafLog : Nat
  leafHdr : NodeHdr
  items : List LeafItem
  deriving DecidableEq, Repr

/-- The child index `tracePath` follows: the last key pointer of the leading run, or the leftmost
    one when the key is smaller than all of them. -/
def chosenIdx (ptrs : List KeyPtr) (k : Key) : Nat := (ptrRun ptrs k).length - 1

/-- The block pointer in a slot of an internal node; a slot past the last one is zeroed. -/
def childAt (ptrs : List KeyPtr) (idx : Nat) : Nat := (ptrs[idx]?.map KeyPtr.child).getD 0

def tracePathFrom (sb : Superblock) (dev : Device) (k : Key) :
    Nat → List Nat → Nat → Except Err Trace
  | 0, _, _ => .error (errDepth "btrfs: btree")
  | d + 1, seen, logAddr =>
    if logAddr ∈ seen then .error (errGuard "tracePath")
    else
      match readNode sb dev logAddr with
      | .error e => .error e
      | .ok (.leaf hdr items) => .ok ⟨[], logAddr, hdr, items⟩
      | .ok (.internal hdr below ptrs) =>
        let idx := chosenIdx ptrs k
        match tracePathFrom sb dev k d (logAddr :: seen) (childAt ptrs idx) with
        | .error e => .error e
        | .ok t => .ok { t with inner := ⟨logAddr, hdr, below, ptrs, idx⟩ :: t.inner }

/-- The path from the root to the leaf where the key would land. -/
def tracePath (sb : Superblock) (dev : Device) (root : Nat) (k : Key) : Except Err Trace :=
  tracePathFrom sb dev k (maxBtreeDepth + 1) [] root

/-! ## 3. Whole-tree walks -/

/-- The state of a recursive walk: addresses seen, nodes visited, and what was handed to the
    callback so far. -/
structure Walk (β : Type) where
  seen : List Nat
  visits : Nat
  out : List β
  deriving DecidableEq, Repr

def walkNodeAt (sb : Superblock) (dev : Device) :
    Nat → Nat → EStateM Err (Walk (List LeafItem)) Unit
  | 0, _ => throw (errDepth "btrfs: chunk-tree")
  | d + 1, logAddr => fun w =>
    if maxTreeNodes ≤ w.visits then .error (errGuard "walkNode") w
    else if logAddr ∈ w.seen then .error (errGuard "walkNode") { w with visits := w.visits + 1 }
    else
      let w := { w with visits := w.visits + 1, seen := logAddr :: w.seen }
      match readNode sb dev logAddr with
      | .error e => .error e w
      | .ok (.leaf _ items) => .ok () { w with out := w.out ++ [items] }
      | .ok (.internal _ _ ptrs) =>
        ptrs.forM (fun p => if p.child = 0 then pure () else walkNodeAt sb dev d p.child) w

/-- Run a walk from the start. -/
def runWalk {β : Type} (x : EStateM Err (Walk β) Unit) : List β × Option Err :=
  match x ⟨[], 0, []⟩ with
  | .ok _ w => (w.out, none)
  | .error e w => (w.out, some e)

/-- The item lists of the leaves in the order `walkLeaves` hands them to its callback, and the
    error that stopped it. -/
def walkLeaves (sb : Superblock) (dev : Device) (root : Nat) :
    List (List LeafItem) × Option Err :=
  runWalk (walkNodeAt sb dev (maxBtreeDepth + 1) root)

def walkAddrsAt (sb : Superblock) (dev : Device) : Nat → Nat → EStateM Err (Walk Nat) Unit
  | 0, _ => throw (errDepth "btrfs: tree")
  | d + 1, logAddr => fun w =>
    if maxTreeNodes ≤ w.visits then .error (errGuard "walkNodeAddrs") w
    else if logAddr ∈ w.seen then .ok () { w with visits := w.visits + 1 }
    else
      let w := ⟨logAddr :: w.seen, w.visits + 1, w.out ++ [logAddr]⟩
      match readNode sb dev logAddr with
      -- a node that cannot be read is left out, and the walk goes on
      | .error _ => .ok () w
      | .ok (.leaf _ _) => .ok () w
      | .ok (.internal _ _ ptrs) =>
        ptrs.forM (fun p => if p.child = 0 then pure () else walkAddrsAt sb dev d p.child) w

/-- The node addresses in the order `walkNodeAddrs` hands them to its callback. -/
def walkNodeAddrs (sb : Superblock) (dev : Device) (root : Nat) : List Nat × Option Err :=
  runWalk (walkAddrsAt sb dev (maxBtreeDepth + 1) root)

/-! ## 4. Prefix walks -/

/-- The key of the pointer is already past every key with this objectid and type. -/
def KeyPtr.past (objID typ : Nat) (p : KeyPtr) : Bool :=
  decide (objID < p.k.objID ∨ p.k.objID = objID ∧ typ < p.k.typ)

/-- The stack loop of `walkPrefixLeaves`: the matching items in order.  The node guard bounds the
    number of turns. -/
def walkPrefixFrom (sb : Superblock) (dev : Device) (objID typ : Nat) :
    Nat → List (Nat × Nat) → List Nat → List LeafItem → Except Err (List LeafItem)
  | _, [], _, out => .ok out
  | fuel, (logAddr, depth) :: stack, seen, out =>
    if maxBtreeDepth < depth then .error (errDepth "btrfs: btree")
    else
      match fuel with
      | 0 => .error (errGuard "walkPrefixLeaves")
      | fuel + 1 =>
        if logAddr ∈ seen then .error (errGuard "walkPrefixLeaves")
        else
          match readNode sb dev logAddr with
          | .error e => .error e
          | .ok (.leaf _ items) =>
            walkPrefixFrom sb dev objID typ fuel stack (logAddr :: seen)
              (out ++ items.filter (LeafItem.hasPrefix objID typ))
          | .ok (.internal _ _ ptrs) =>
            -- children are tried from the left, up to the first that is past the prefix
            let children := (ptrs.takeWhile fun p => !p.past objID typ).map fun p =>
              (p.child, depth + 1)
            walkPrefixFrom sb dev objID typ fuel (children ++ stack) (logAddr :: seen) out

def walkPrefixLeaves (sb : Superblock) (dev : Device) (root objID typ : Nat) :
    Except Err (List LeafItem) :=
  walkPrefixFrom sb dev objID typ maxTreeNodes [(root, 0)] [] []

/-- All items with this objectid and type; finding none is an error. -/
def collectPrefixItems (sb : Superblock) (dev : Device) (root objID typ : Nat) :
    Except Err (List (Key × Bytes)) :=
  match walkPrefixLeaves sb dev root objID typ with
  | .error e => .error e
  | .ok [] =>
    .error (.wrap "btrfs: no items for objID=%d type=0x%02X: %w" [.num objID, .num typ]
      (.sentinel .errNotFound))
  | .ok (it :: items) => .ok ((it :: items).map LeafItem.kv)

/-- The stack loop of `findLeafContainingPrefix`: the first leaf holding a matching item. -/
def findLeafFrom (sb : Superblock) (dev : Device) (objID typ : Nat) :
    Nat → List (Nat × Nat) → List Nat → Except Err (Option Nat)
  | _, [], _ => .ok none
  | fuel, (logAddr, depth) :: stack, seen =>
    if maxBtreeDepth < depth then .error (errDepth "btrfs: btree")
    else
      match fuel with
      | 0 => .error (errGuard "findLeafContainingPrefix")
      | fuel + 1 =>
        if logAddr ∈ seen then .error (errGuard "findLeafContainingPrefix")
        else
          match readNode sb dev logAddr with
          | .error e => .error e
          | .ok (.leaf _ items) =>
            if items.any (LeafItem.hasPrefix objID typ) then .ok (some logAddr)
            else findLeafFrom sb dev objID typ fuel stack (logAddr :: seen)
          | .ok (.internal _ _ ptrs) =>
            -- unlike walkPrefixLeaves, a child past the prefix is skipped and the scan goes on
            let children := (ptrs.filter fun p => !p.past objID typ).map fun p =>
              (p.child, depth + 1)
            findLeafFrom sb dev objID typ fuel (children ++ stack) (logAddr :: seen)

def findLeafContainingPrefix (sb : Superblock) (dev : Device) (root objID typ : Nat) :
    Except Err (Option Nat) :=
  findLeafFrom sb dev objID typ maxTreeNodes [(root, 0)] []

end Btrfs
