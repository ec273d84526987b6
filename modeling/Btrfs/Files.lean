/-
  Btrfs/Files.lean
  ================
  **Files and directories over a tree of items** — `inode.go`, `dir.go`, `read.go` and
  the public read calls of `fs.go`.

  The file layer sees the layers below through a `Backend`: search and edit the items of
  the FS tree, and reach the device and the free list.  The operations of the B-tree are
  one such backend, a sorted map with the node traffic of a B-tree is another.

  A path is the list of the names that `path.Clean` leaves of it.
-/
import Btrfs.Items
import Btrfs.Device

namespace Btrfs

open Lib

/-! ## 1. The layers below -/

/-- What the file operations use of the layers below them.  A mutation publishes the new root of
    the FS tree when it succeeds; when it fails, it has still done what it had done. -/
structure Backend (σ : Type) where
  sb : σ → Superblock
  vol : σ → Vol
  setVol : Vol → σ → σ
  searchTree : σ → Key → Except Err Bytes
  collectPrefixItems : σ → Nat → Nat → Except Err (List (Key × Bytes))
  /-- What a walk over the leaves hands out, whether or not it ends with an error. -/
  walkItems : σ → List (Key × Bytes)
  cowInsert : Key → Bytes → EStateM Err σ Unit
  cowUpdate : Key → Bytes → EStateM Err σ Unit
  cowDelete : Key → EStateM Err σ Unit
  cowDeletePrefix : Nat → Nat → EStateM Err σ Unit
  /-- Commit the FS tree: root tree, extent tree, superblock. -/
  updateFsTreeRoot : EStateM Err σ Unit

abbrev Path := List Name

/-- What expands a compressed extent: code, payload, expected length. -/
abbrev Codec := Nat → Bytes → Nat → Except Err Bytes

variable {σ : Type} (B : Backend σ)

/-! ## 2. Inodes and directories -/

def readInode (s : σ) (ino : Nat) : Except Err InodeItem :=
  match B.searchTree s ⟨ino, typeInodeItem, 0⟩ with
  | .error e => .error (.wrap "btrfs: inode %d: %w" [.num ino] e)
  | .ok d =>
    if d.length < inodeItemSize then
      .error (.errorf "btrfs: inode %d: INODE_ITEM too short (%d bytes)"
        [.num ino, .num d.length])
    else .ok (decodeInodeItem ino d)

/-- The entry the DIR_ITEM with the hash of the name holds. -/
def lookupHashed (s : σ) (dirIno : Nat) (name : Name) : Option (Nat × Nat) :=
  match B.searchTree s ⟨dirIno, typeDirItem, hashDirName name⟩ with
  | .ok d => parseDirItems d name
  | .error _ => none

/-- The first entry with the name among the DIR_INDEX items. -/
def lookupIndexed (s : σ) (dirIno : Nat) (name : Name) : Option (Nat × Nat) :=
  match B.collectPrefixItems s dirIno typeDirIndex with
  | .ok items => items.findSome? fun e => parseDirItems e.2 name
  | .error _ => none

/-- Inode and file type of a name in a directory. -/
def lookupDirEntry (s : σ) (dirIno : Nat) (name : Name) : Except Err (Nat × Nat) :=
  match (lookupHashed B s dirIno name).or (lookupIndexed B s dirIno name) with
  | some r => .ok r
  | none => .error (.wrap "btrfs: %q not found in inode %d: %w: %w"
      [.names [name], .num dirIno] (.sentinel .errNotFound))

/-- Follow the names of a path from a directory. -/
def walkPath (s : σ) : Nat → Path → Except Err Nat
  | ino, [] => .ok ino
  | ino, name :: p =>
    match lookupDirEntry B s ino name with
    | .error e => .error e
    | .ok (child, _) => walkPath s child p

/-- The inode a path leads to. -/
def pathLookup (s : σ) (p : Path) : Except Err InodeItem :=
  if p.isEmpty then readInode B s rootDirObjID
  else
    match walkPath B s rootDirObjID p with
    | .error e => .error (.wrap "btrfs: %q: %w" [.names p] e)
    | .ok ino =>
      match readInode B s ino with
      | .error e => .error (.wrap "btrfs: stat inode for %q: %w" [.names p] e)
      | .ok i => .ok i

def pathLookupIno (s : σ) (p : Path) : Except Err Nat := (pathLookup B s p).map InodeItem.num

/-- All entries of a directory but `.` and `..`. -/
def readDir (s : σ) (dirIno : Nat) : List DirEntry :=
  match B.collectPrefixItems s dirIno typeDirIndex with
  | .ok items => items.flatMap fun e => parseDirItemsAll e.2
  | .error _ => []

/-! ## 3. File data -/

/-- Allocation ceiling of a reader that does not know the size of its device. -/
def hardSizeCeiling : Nat := 2 ^ 30

def maxDecompressRAM : Nat := 128 * 1024

def compressionNone : Nat := 0

def clampRAM (ramBytes contextMax : Nat) : Nat := min (min ramBytes maxDecompressRAM) contextMax

def decompressExtent (codec : Codec) (src : Bytes) (compression ramBytes : Nat) :
    Except Err Bytes :=
  if compression = compressionNone then .ok src else codec compression src ramBytes

/-- What the loop over the extents of a file has assembled: the content, and where the last
    regular extent ended. -/
structure Assembled where
  out : Bytes
  prevEnd : Nat
  deriving DecidableEq, Repr

def readInline (codec : Codec) (i : InodeItem) (fileOffset : Nat) (d : Bytes) (acc : Assembled) :
    Except Err Assembled :=
  let remaining := i.size - fileOffset
  let ramBytes := clampRAM (leAt 8 extDataOffRamBytes d) remaining
  match decompressExtent codec (d.drop extDataHdrSize) (leAt 1 extDataOffCompression d) ramBytes with
  | .error e => .error (.wrap "btrfs: inode %d inline extent at file offset %d: %w"
      [.num i.num, .num fileOffset] e)
  | .ok inlineData => .ok { acc with out := putAt fileOffset (inlineData.take remaining) acc.out }

/-- The bytes of a regular extent that belong to `numBytes` bytes of the file. -/
def readRegularBytes (codec : Codec) (s : σ) (d : Bytes) (numBytes : Nat) : Except Err Bytes :=
  let diskBytenr := leAt 8 extDataOffDiskBytenr d
  let extOffset := leAt 8 extDataOffOffset d
  let compression := leAt 1 extDataOffCompression d
  if compression = compressionNone then
    match (B.sb s).physAddr (diskBytenr + extOffset) with
    | .error e => .error e
    | .ok phys =>
      match readAt (B.vol s).dev phys numBytes with
      | .error e => .error (.wrap "btrfs: read extent data: %w" [] e)
      | .ok b => .ok b
  else
    let diskNumBytes := leAt 8 extDataOffDiskNumBytes d
    if hardSizeCeiling < diskNumBytes then
      .error (.wrap "btrfs: compressed extent disk_num_bytes %d: %w" [.num diskNumBytes]
        (.sentinel .errLimit))
    else
      match (B.sb s).physAddr diskBytenr with
      | .error e => .error e
      | .ok phys =>
        match readAt (B.vol s).dev phys diskNumBytes with
        | .error e => .error (.wrap "btrfs: read compressed extent data: %w" [] e)
        | .ok compressed =>
          let ramBytes := clampRAM (leAt 8 extDataOffRamBytes d) (extOffset + numBytes)
          match decompressExtent codec compressed compression ramBytes with
          | .error e => .error e
          | .ok b =>
            if b.length < extOffset + numBytes then
              .error (.wrap "btrfs: decompressed extent too short: %w" []
                (.sentinel .errOutOfBounds))
            else .ok ((b.drop extOffset).take numBytes)

def readRegular (codec : Codec) (s : σ) (i : InodeItem) (fileOffset : Nat) (d : Bytes)
    (acc : Assembled) : Except Err Assembled :=
  let stop := (fileOffset + leAt 8 extDataOffNumBytes d) % 2 ^ 64
  if stop < fileOffset ∨ fileOffset < acc.prevEnd then
    .error (.wrap "btrfs: inode %d extent at file offset %d overlaps the previous extent (ends at %d): %w"
      [.num i.num, .num fileOffset, .num acc.prevEnd] (.sentinel .errOutOfBounds))
  else if leAt 8 extDataOffDiskBytenr d = 0 then .ok { acc with prevEnd := stop }
  else
    match readRegularBytes B codec s d
        (min (leAt 8 extDataOffNumBytes d) (i.size - fileOffset)) with
    | .error e => .error (.wrap "btrfs: inode %d extent at file offset %d: %w"
        [.num i.num, .num fileOffset] e)
    | .ok b => .ok ⟨putAt fileOffset b acc.out, stop⟩

/-- One turn of the loop over the extents of a file. -/
def readExtent (codec : Codec) (s : σ) (i : InodeItem) (acc : Assembled) (e : Key × Bytes) :
    Except Err Assembled :=
  if i.size ≤ e.1.offset then .ok acc
  else
    match extentType e.2 with
    | none => .ok acc
    | some typ =>
      if typ = extentDataInline then readInline codec i e.1.offset e.2 acc
      else if typ = extentDataRegular then
        if e.2.length < extDataRegularSize then .ok acc
        else readRegular B codec s i e.1.offset e.2 acc
      -- a preallocated extent reads as zeros
      else .ok acc

/-- The content of a file: its extents over a buffer of zeros. -/
def readFileData (codec : Codec) (s : σ) (i : InodeItem) : Except Err Bytes :=
  if i.size = 0 then .ok []
  else
    match B.collectPrefixItems s i.num typeExtentData with
    | .error e => .error (.wrap "btrfs: read extents for inode %d: %w" [.num i.num] e)
    | .ok items =>
      if hardSizeCeiling < i.size then
        .error (.wrap "btrfs: inode %d declared size %d: %w" [.num i.num, .num i.size]
          (.sentinel .errLimit))
      else (items.foldlM (readExtent B codec s i) ⟨zeros i.size, 0⟩).map Assembled.out

/-! ## 4. The read calls -/

def readFile (codec : Codec) (s : σ) (p : Path) : Except Err Bytes :=
  match pathLookup B s p with
  | .error e => .error e
  | .ok i =>
    if !i.isRegular then .error (.errorf "btrfs: %q is not a regular file" [.names p])
    else readFileData B codec s i

def listDir (s : σ) (p : Path) : Except Err (List DirEntry) :=
  match pathLookup B s p with
  | .error e => .error e
  | .ok i =>
    if !i.isDir then .error (.errorf "btrfs: %q is not a directory" [.names p])
    else .ok (readDir B s i.num)

/-- Mode, size and inode number. -/
def stat (s : σ) (p : Path) : Except Err (Nat × Nat × Nat) :=
  (pathLookup B s p).map fun i => (i.mode, i.size, i.num)

def readLink (codec : Codec) (s : σ) (p : Path) : Except Err Bytes :=
  match pathLookup B s p with
  | .error e => .error e
  | .ok i =>
    if !i.isSymlink then .error (.errorf "btrfs: %q is not a symbolic link" [.names p])
    else
      match readFileData B codec s i with
      | .error e => .error (.wrap "btrfs: read symlink inode %d: %w" [.num i.num] e)
      | .ok b => .ok b

/-- The extended attributes of a path, in the order of their items. -/
def xattrs (s : σ) (p : Path) : Except Err (List (Name × Bytes)) :=
  match pathLookup B s p with
  | .error e => .error e
  | .ok i =>
    match B.collectPrefixItems s i.num typeXattrItem with
    | .error e => if e.is .errNotFound then .ok [] else .error e
    | .ok items => .ok (items.filterMap fun e => parseXattrItem e.2)

/-- One extended attribute of a path.  The item under the hash of the name may be that of another
    name. -/
def getXattrInode (s : σ) (p : Path) (name : Name) : Except Err Bytes :=
  match pathLookup B s p with
  | .error e => .error e
  | .ok i =>
    match B.searchTree s ⟨i.num, typeXattrItem, hashDirName name⟩ with
    | .error e => .error (.wrap "btrfs getxattr %q on %q: %w" [.names [name], .names p] e)
    | .ok d =>
      match parseXattrItem d with
      | none => .error (.errorf "btrfs getxattr %q on %q: malformed item" [.names [name], .names p])
      | some (gotName, gotValue) =>
        if gotName ≠ name then
          .error (.wrap "btrfs getxattr %q on %q: hash collision (got %q): %w"
            [.names [name], .names p, .names [gotName]] (.sentinel .errNotFound))
        else .ok gotValue

end Btrfs
