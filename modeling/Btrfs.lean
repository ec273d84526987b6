import Btrfs.Creation
import Btrfs.Emptied
import Btrfs.InodeRefs
import Btrfs.ItemGrow
import Btrfs.LeafPacking
import Btrfs.Ledger
import Btrfs.MountSpec
import Btrfs.Nested
import Btrfs.Overwrite
import Btrfs.PrefixDelete
import Btrfs.ReadBounds
import Btrfs.Readers
import Btrfs.Relocate
import Btrfs.Rename
import Btrfs.SelfDescribing
import Btrfs.SysChunks
import Btrfs.Xattrs
