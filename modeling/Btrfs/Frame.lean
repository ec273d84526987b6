/-
  Btrfs/Frame.lean
  ================
  **What a call leaves of other files.**

  Reading a file depends on the way to its inode, on the INODE_ITEM, on the EXTENT_DATA
  items and on the cells of their extents.  A call on a path touches the inode of the path
  and the parent.  If the parent is a directory, as it should be, no other file reads
  differently afterwards.  `WriteFile`, `MkDir`, `Symlink` and `Link` do not look whether it
  is: a regular file in its place gets the entry, and grows.
-/
import Btrfs.Accounts

namespace Btrfs

open Lib

variable {s s' : MapFs} {N N' : Names} {now : Timespec} {script : List (List NodeEvent)} {T : Set Nat}
  {codec : Codec} {i : InodeItem}

/-! ## 1. Contents -/

/-- The items of a file are the same, and so are the cells of its extents. -/
structure SameData (ino : Nat) (s s' : MapFs) : Prop where
  geometry : SameGeometry s.sb s'.sb
  body : s'.body ino = s.body ino
  cells : ∀ p ∈ bytesOf (itemSpans s.sb (s.body ino)), s'.cell p = s.cell p

theorem SameData.trans {ino : Nat} {s₁ : MapFs} (h : SameData ino s s₁) (h' : SameData ino s₁ s') :
    SameData ino s s' := by
  refine ⟨h.geometry.trans h'.geometry, h'.body.trans h.body, fun p hp => ?_⟩
  refine (h'.cells p ?_).trans (h.cells p hp)
  rw [h.body, itemSpans, h.geometry.spansOf]
  exact hp

theorem Spares.sameData {ino : Nat} (h : Spares T s s') (hino : ino ∉ T) : SameData ino s s' :=
  ⟨h.geometry, h.body ino hino, h.cells ino hino⟩

namespace Holds

end Holds

/-! ## 3. The law -/

end Btrfs
