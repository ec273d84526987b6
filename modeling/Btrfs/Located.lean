/-
  Btrfs/Located.lean
  ==================
  **Trees that live on the device** — which blocks a tree occupies and what they hold.

  A located tree is a search tree whose nodes carry their logical address and header.
  It is never computed by the driver: it is what the blocks reachable from a root
  amount to.  `Held` says that each node, read from the device, is the node the located
  tree has there; `foot` is the set of bytes the nodes occupy, and `Apart` says that no
  two nodes share a byte.  Forgetting the addresses gives the search tree (`shape`), and
  `TreeOk` puts together what a mutation may assume of the tree it is given.
-/
import Btrfs.Lib.SearchTree
import Btrfs.Cow

namespace Btrfs

open Lib

/-! ## 1. Located trees -/

structure LeafBlk where
  addr : Nat
  hdr : NodeHdr
  items : List LeafItem

/-- A child under its key pointer: the pointer's key and generation, and the subtree. -/
structure Kid (α : Type) where
  sep : Key
  gen : Nat
  sub : α

structure NodeBlk (α : Type) where
  addr : Nat
  hdr : NodeHdr
  kids : List (Kid α)

/-- A tree of height `h` with the place of each node. -/
def LTree : Nat → Type
  | 0 => LeafBlk
  | h + 1 => NodeBlk (LTree h)

namespace LTree

def addr : (h : Nat) → LTree h → Nat
  | 0, (b : LeafBlk) => b.addr
  | h + 1, (b : NodeBlk (LTree h)) => b.addr

/-- The key pointer of a child. -/
def ptr (h : Nat) (c : Kid (LTree h)) : KeyPtr := ⟨c.sep, addr h c.sub, c.gen⟩

/-- The node block at the root of the tree. -/
def node : (h : Nat) → LTree h → Node
  | 0, (b : LeafBlk) => .leaf b.hdr b.items
  | h + 1, (b : NodeBlk (LTree h)) => .internal b.hdr h (b.kids.map (ptr h))

/-- The tree without its places. -/
def shape : (h : Nat) → LTree h → STree Key LeafItem h
  | 0, (b : LeafBlk) => b.items
  | h + 1, (b : NodeBlk (LTree h)) => b.kids.map fun c => (c.sep, shape h c.sub)

/-- The bytes the nodes occupy. -/
def foot (sb : Superblock) : (h : Nat) → LTree h → Set Nat
  | 0, (b : LeafBlk) => blk sb b.addr
  | h + 1, (b : NodeBlk (LTree h)) => blk sb b.addr ∪ {p | ∃ c ∈ b.kids, p ∈ foot sb h c.sub}

/-- Each node, read from the device, is the one the tree has there; no child has address 0. -/
def Held (sb : Superblock) (dev : Device) : (h : Nat) → LTree h → Prop
  | 0, b => readNode sb dev (addr 0 b) = .ok (node 0 b)
  | h + 1, (b : NodeBlk (LTree h)) =>
    readNode sb dev b.addr = .ok (.internal b.hdr h (b.kids.map (ptr h))) ∧
    ∀ c ∈ b.kids, addr h c.sub ≠ 0 ∧ Held sb dev h c.sub

/-- No two nodes share a byte. -/
def Apart (sb : Superblock) : (h : Nat) → LTree h → Prop
  | 0, _ => True
  | h + 1, (b : NodeBlk (LTree h)) =>
    (b.kids.Pairwise fun c d => Disjoint (foot sb h c.sub) (foot sb h d.sub)) ∧
    ∀ c ∈ b.kids, Disjoint (blk sb b.addr) (foot sb h c.sub) ∧ Apart sb h c.sub

/-- The number of nodes. -/
def count : (h : Nat) → LTree h → Nat
  | 0, _ => 1
  | h + 1, (b : NodeBlk (LTree h)) => 1 + (b.kids.map fun c => count h c.sub).sum

/-- The items of the leaves, leaf by leaf. -/
def leaves : (h : Nat) → LTree h → List (List LeafItem)
  | 0, (b : LeafBlk) => [b.items]
  | h + 1, (b : NodeBlk (LTree h)) => b.kids.flatMap fun c => leaves h c.sub

def items (h : Nat) (t : LTree h) : List LeafItem := STree.items h (shape h t)

/-- The `(key, data)` pairs in order. -/
def contents (h : Nat) (t : LTree h) : List (Key × Bytes) := (items h t).map LeafItem.kv

variable {sb : Superblock} {dev dev' : Device}

theorem held_root {h : Nat} {t : LTree h} (ht : Held sb dev h t) :
    readNode sb dev (addr h t) = .ok (node h t) := by
  cases h with
  | zero => exact ht
  | succ h => exact ht.1

theorem blk_subset_foot (h : Nat) (t : LTree h) : blk sb (addr h t) ⊆ foot sb h t := by
  cases h with
  | zero => exact subset_rfl
  | succ h => exact Set.subset_union_left

theorem kid_foot_subset {h : Nat} {b : NodeBlk (LTree h)} {c : Kid (LTree h)} (hc : c ∈ b.kids) :
    foot sb h c.sub ⊆ foot sb (h + 1) b := by
  intro p hp
  exact Or.inr ⟨c, hc, hp⟩

/-- **Frame.** A tree disjoint from every block that changed is still held. -/
theorem Held.frame {S : Set Nat}
    (hframe : ∀ a, Disjoint (blk sb a) S → readNode sb dev' a = readNode sb dev a) :
    ∀ (h : Nat) (t : LTree h), Disjoint (foot sb h t) S → Held sb dev h t → Held sb dev' h t := by
  intro h
  induction h with
  | zero =>
    intro t hd ht
    have hroot := hframe _ (hd.mono_left (blk_subset_foot 0 t))
    exact hroot.trans ht
  | succ h ih =>
    intro (b : NodeBlk (LTree h)) hd ht
    obtain ⟨hread, hkids⟩ := ht
    constructor
    · have hroot := hframe _ (hd.mono_left (blk_subset_foot (h + 1) b))
      exact hroot.trans hread
    · intro c hc
      have hsub := hd.mono_left (kid_foot_subset hc)
      exact ⟨(hkids c hc).1, ih c.sub hsub (hkids c hc).2⟩

theorem flatten_leaves : ∀ (h : Nat) (t : LTree h), (leaves h t).flatten = items h t := by
  intro h
  induction h with
  | zero => intro t; simp [leaves, items, shape, STree.items]
  | succ h ih =>
    intro (b : NodeBlk (LTree h))
    have hkids : (leaves (h + 1) b).flatten = b.kids.flatMap fun c => (leaves h c.sub).flatten := by
      simp only [leaves]
      rw [List.flatMap_def, List.flatten_flatten, List.map_map]
      rfl
    rw [hkids]
    simp only [ih, items, shape, STree.items, List.flatMap_map]

end LTree

/-! ## 2. What a mutation may assume -/

/-- A tree on a volume: its nodes are on the device, in blocks of usable bytes that do not overlap
    each other or the free list. -/
structure OnVol (sb : Superblock) (v : Vol) {h : Nat} (t : LTree h) : Prop where
  vol : VolOk sb v
  held : LTree.Held sb v.dev h t
  apart : LTree.Apart sb h t
  live : Disjoint (LTree.foot sb h t) v.sm.free
  usable : LTree.foot sb h t ⊆ usable sb

/-- What a mutation may assume: a tree on the volume whose internal nodes all have a child. -/
structure TreeOk (sb : Superblock) (v : Vol) {h : Nat} (t : LTree h) : Prop
    extends OnVol sb v t where
  full : STree.Full h (LTree.shape h t)

end Btrfs
