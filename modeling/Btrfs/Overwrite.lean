/-
  Btrfs/Overwrite.lean
  ====================
  **Overwriting a file when node blocks run short.**

  `overwriteFile` lays out the new body and then edits size and `nbytes` of the inode.  The
  edit copies the path to the INODE_ITEM, and where the insertion of the new items has
  split a leaf, the path may be longer than before and the blocks fewer.  The error of the
  edit is dropped: the call goes on to commit a new body under the old size.  Nothing else
  that a call does fails without a word, so the old size stays exactly when the edit was
  the one to ask for a block in vain.
-/
import Btrfs.NodeRoom
import Btrfs.WriteRead

namespace Btrfs

open Lib

variable {s s' : MapFs} {ino : Nat} {now : Timespec} {data : Bytes} {p : Path}

/-! ## 1. Runs that miss no block -/

variable {i : InodeItem} {perm : Nat}

end Btrfs
