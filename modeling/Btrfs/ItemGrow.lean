/-
  Btrfs/ItemGrow.lean
  ===================
  **Updates that make an item longer.**

  `cowInsert` answers a full leaf by a split.  `cowUpdate` does not: `leafReplaceItemData`
  has an error of its own for a payload that does not fit beside the neighbours of the
  item, which no caller takes for a full leaf.  So an update succeeds exactly when the leaf
  the key is routed to holds the new payload in the place of the old one.
-/
import Btrfs.Content
import Btrfs.CowRoom
import Btrfs.LeafSplit

namespace Btrfs

open Lib LTree

variable {sb : Superblock} {v v' : Vol} {ns : Nat} {items : List LeafItem} {k : Key} {data : Bytes}

/-! ## 1. One leaf -/

/-- A tree that is well formed, with leaves that fit in their nodes, and no deeper than a descent
    goes. -/
structure WellFormedTree (sb : Superblock) (v : Vol) {h : Nat} (t : LTree h) : Prop
    extends WellFormed sb v t where
  fits : ∀ l ∈ leaves h t, LeafFits sb.nodeSize (l.map LeafItem.kv)
  depth : h ≤ maxBtreeDepth

/-- The update succeeds, and a walk from the new root lists the key with the new payload. -/
def UpdateDone (sb : Superblock) (v : Vol) {h : Nat} (t : LTree h) (k : Key) (data : Bytes) : Prop :=
  ∃ r v', cowUpdate sb (addr h t) k data v = .ok r v' ∧
    Lists sb v' r (replaceData k data (contents h t)) h (count h t)

section tree

variable {h : Nat} {t : LTree h}

end tree

/-! ### A leaf with 17 bytes to spare -/

theorem twoLeaves_wellFormedTree : WellFormedTree smallSb twoLeavesVol (h := 1) twoLeaves := by
  refine ⟨twoLeaves_wellFormed, ?_, by decide⟩
  show ∀ l ∈ [[smallItem 1, smallItem 3], [smallItem 5]], LeafFits 168 (l.map LeafItem.kv)
  decide

/-- With 18 bytes the update fails, although a leaf of its own would hold the item, the other leaf
    has room for it and 39 blocks are free. -/
theorem cowUpdate_refuses_twoLeaves :
    WellFormedTree smallSb twoLeavesVol (h := 1) twoLeaves ∧
    (∃ it ∈ LTree.items 1 twoLeaves, it.k = ⟨3, 1, 0⟩) ∧ 1 + 1 ≤ twoLeavesVol.sm.blocks ∧
    nodeHdrSize + itemSize + (List.replicate 18 (0 : UInt8)).length ≤ smallSb.nodeSize ∧
    ¬ UpdateDone smallSb twoLeavesVol (h := 1) twoLeaves ⟨3, 1, 0⟩ (List.replicate 18 0) := by
  have hk : ∃ it ∈ LTree.items 1 twoLeaves, it.k = ⟨3, 1, 0⟩ :=
    show ∃ it ∈ [smallItem 1, smallItem 3, smallItem 5], it.k = ⟨3, 1, 0⟩ by decide
  refine ⟨twoLeaves_wellFormedTree, hk, by decide, by decide, ?_⟩
  rintro ⟨r, v', hrun, -⟩
  have hfails : succeeded (cowUpdate smallSb 1024 ⟨3, 1, 0⟩ (List.replicate 18 0) twoLeavesVol) =
      false := by decide +kernel
  have hrun' : cowUpdate smallSb 1024 ⟨3, 1, 0⟩ (List.replicate 18 0) twoLeavesVol = .ok r v' := hrun
  rw [hrun'] at hfails
  cases hfails

end Btrfs
