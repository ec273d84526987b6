/-
  Btrfs/Items.lean
  ================
  **Item types and the payloads of items** — the codes of `btrfs.go` and the fields the
  driver reads out of items and writes into them.

  A payload is the byte string of a leaf item.  A reader of the driver checks the length
  before it looks at a field, and so does every reader here; an in-place edit of a field
  does not, and here too it is made on payloads long enough to have the field.
-/
import Btrfs.Lib.LittleEndian
import Btrfs.Lib.Crc32c
import Btrfs.Lib.Span
import Btrfs.Node

namespace Btrfs

open Lib

/-! ### Codes -/

def typeInodeItem : Nat := 0x01

def typeInodeRef : Nat := 0x0C

def typeXattrItem : Nat := 0x18

def typeDirItem : Nat := 0x54

def typeDirIndex : Nat := 0x60

def typeExtentData : Nat := 0x6C

def typeRootItem : Nat := 0x84

def typeChunkItem : Nat := 0xE4

def fsTreeObjID : Nat := 5

/-- The inode number of the root directory. -/
def rootDirObjID : Nat := 256

/-- The ids of subvolumes and snapshots. -/
def firstFreeObjID : Nat := 256

def lastFreeObjID : Nat := 0xFFFFFFFFFFFFFF00

def extentDataInline : Nat := 0

def extentDataRegular : Nat := 1

def extentDataPrealloc : Nat := 2

/-! ### ROOT_ITEM -/

def rootItemOffBytenr : Nat := 0xB0

/-- The address of the root node of the tree a ROOT_ITEM describes. -/
def rootBytenr (it : LeafItem) : Option Nat :=
  if it.k.typ ≠ typeRootItem then none
  else if it.data.length < rootItemOffBytenr + 8 then none
  else if leAt 8 rootItemOffBytenr it.data = 0 then none
  else some (leAt 8 rootItemOffBytenr it.data)

/-! ### CHUNK_ITEM -/

def chunkSize : Nat := 0x00

def chunkType : Nat := 0x18

def chunkNumStripes : Nat := 0x2C

def chunkStripeSize : Nat := 0x20

def chunkHeaderSize : Nat := 0x30

/-- One device and physical offset of a chunk. -/
structure ChunkStripe where
  devID : Nat
  offset : Nat
  deriving DecidableEq, Repr

/-- The stripes that are wholly there, in order. -/
def parseAllStripes (d : Bytes) (numStripes : Nat) : List ChunkStripe :=
  ((List.range numStripes).map fun i => chunkHeaderSize + i * chunkStripeSize).filterMap
    fun base =>
      if d.length < base + chunkStripeSize then none
      else some ⟨leAt 8 base d, leAt 8 (base + 8) d⟩

/-- The stripe on this device; a superblock without a device id takes the first one. -/
def localStripe (devID : Nat) (stripes : List ChunkStripe) : Option ChunkStripe :=
  if devID = 0 then stripes.head? else stripes.find? fun s => decide (s.devID = devID)

/-- The mapping a CHUNK_ITEM of the chunk tree describes. -/
def chunkMappingOf (devID : Nat) (it : LeafItem) : Option ChunkMapping :=
  if it.k.typ ≠ typeChunkItem then none
  else if it.data.length < chunkHeaderSize + chunkStripeSize then none
  else if leAt 2 chunkNumStripes it.data = 0 then none
  else
    let stripes := parseAllStripes it.data (leAt 2 chunkNumStripes it.data)
    some ⟨it.k.offset, leAt 8 chunkSize it.data,
      ((localStripe devID stripes).map ChunkStripe.offset).getD 0, leAt 8 chunkType it.data⟩

/-! ### EXTENT_DATA -/

def extDataOffRamBytes : Nat := 0x08

def extDataOffCompression : Nat := 0x10

def extDataOffType : Nat := 0x14

def extDataOffDiskBytenr : Nat := 0x15

def extDataOffDiskNumBytes : Nat := 0x1D

def extDataOffOffset : Nat := 0x25

def extDataOffNumBytes : Nat := 0x2D

/-- The header before inline data or the regular fields. -/
def extDataHdrSize : Nat := 0x15

def extDataRegularSize : Nat := 0x35

def zeros (n : Nat) : Bytes := List.replicate n 0

def encodeExtentData (diskBytenr diskNumBytes fileOffset numBytes generation : Nat) : Bytes :=
  leBytes 8 generation ++ leBytes 8 numBytes ++ zeros 4 ++ leBytes 1 extentDataRegular ++
    leBytes 8 diskBytenr ++ leBytes 8 diskNumBytes ++ leBytes 8 fileOffset ++ leBytes 8 numBytes

def encodeExtentDataInline (inlineData : Bytes) (generation : Nat) : Bytes :=
  leBytes 8 generation ++ leBytes 8 inlineData.length ++ zeros 4 ++ leBytes 1 extentDataInline ++
    inlineData

/-- The extent type byte, when the payload has one. -/
def extentType (d : Bytes) : Option Nat :=
  if d.length ≤ extDataOffType then none else some (leAt 1 extDataOffType d)

/-- The bytes on the device of the extent an EXTENT_DATA payload of this type refers to.  A hole
    has none, and neither has an extent outside every chunk. -/
def extentSpan (sb : Superblock) (typ : Nat) (d : Bytes) : Option Span :=
  if extentType d ≠ some typ then none
  else if d.length < extDataRegularSize then none
  else if leAt 8 extDataOffDiskBytenr d = 0 then none
  else
    match sb.logToPhys (leAt 8 extDataOffDiskBytenr d) with
    | .ok phys => some ⟨phys, leAt 8 extDataOffDiskNumBytes d⟩
    | .error _ => none

/-- The extent a regular EXTENT_DATA item of a leaf refers to. -/
def dataExtent (sb : Superblock) (it : LeafItem) : Option Span :=
  if it.k.typ ≠ typeExtentData then none else extentSpan sb extentDataRegular it.data

/-! ### INODE_ITEM -/

def inodeOffGeneration : Nat := 0x00

def inodeOffTransID : Nat := 0x08

def inodeOffSize : Nat := 0x10

def inodeOffNBytes : Nat := 0x18

def inodeOffNLink : Nat := 0x28

def inodeOffUID : Nat := 0x2C

def inodeOffGID : Nat := 0x30

def inodeOffMode : Nat := 0x34

def inodeOffFlags : Nat := 0x40

def inodeOffSequence : Nat := 0x48

def inodeOffATime : Nat := 0x70

def inodeOffCTime : Nat := 0x7C

def inodeOffMTime : Nat := 0x88

def inodeOffOTime : Nat := 0x94

def inodeItemSize : Nat := 0xA0

def inodeFlagNoDataSum : Nat := 1

/-- A point in time as an inode records it. -/
structure Timespec where
  sec : Nat
  nsec : Nat
  deriving DecidableEq, Repr

def writeBtrfsTimespec (off : Nat) (t : Timespec) (d : Bytes) : Bytes :=
  putLE 4 (off + 8) t.nsec (putLE 8 off t.sec d)

def encodeInodeItem (size mode generation nbytes nlink : Nat) (now : Timespec) : Bytes :=
  let d := putLE 8 inodeOffGeneration generation (zeros inodeItemSize)
  let d := putLE 8 inodeOffTransID generation d
  let d := putLE 8 inodeOffSize size d
  let d := putLE 8 inodeOffNBytes nbytes d
  let d := putLE 4 inodeOffNLink nlink d
  let d := putLE 4 inodeOffMode mode d
  let d := putLE 8 inodeOffFlags inodeFlagNoDataSum d
  let d := writeBtrfsTimespec inodeOffATime now d
  let d := writeBtrfsTimespec inodeOffCTime now d
  let d := writeBtrfsTimespec inodeOffMTime now d
  writeBtrfsTimespec inodeOffOTime now d

/-- The last transaction and the change counter of an inode that is modified. -/
def bumpInodeTransIDSequence (generation : Nat) (d : Bytes) : Bytes :=
  putLE 8 inodeOffSequence (leAt 8 inodeOffSequence d + 1) (putLE 8 inodeOffTransID generation d)

/-- The decoded part of an INODE_ITEM. -/
structure InodeItem where
  num : Nat
  mode : Nat
  size : Nat
  nlink : Nat
  deriving DecidableEq, Repr

namespace InodeItem

def isRegular (i : InodeItem) : Bool := decide (i.mode &&& 0xF000 = 0x8000)

def isDir (i : InodeItem) : Bool := decide (i.mode &&& 0xF000 = 0x4000)

def isSymlink (i : InodeItem) : Bool := decide (i.mode &&& 0xF000 = 0xA000)

end InodeItem

def decodeInodeItem (ino : Nat) (d : Bytes) : InodeItem :=
  ⟨ino, leAt 4 inodeOffMode d % 2 ^ 16, leAt 8 inodeOffSize d, leAt 4 inodeOffNLink d⟩

/-! ### DIR_ITEM and DIR_INDEX -/

abbrev Name := List UInt8

def ftRegFile : Nat := 1

def ftDir : Nat := 2

def ftSymlink : Nat := 7

/-- Everything before the name. -/
def dirItemHdrSize : Nat := 0x1E

structure DirEntry where
  inode : Nat
  name : Name
  fileType : Nat
  deriving DecidableEq, Repr

/-- The name hash in the key of a DIR_ITEM. -/
def hashDirName (name : Name) : Nat := crc32cUpdate 1 name ^^^ 0xFFFFFFFF

def encodeDirItem (locationObjID locationTyp ftype : Nat) (name : Name) : Bytes :=
  leBytes 8 locationObjID ++ leBytes 1 locationTyp ++ zeros 18 ++ leBytes 2 name.length ++
    leBytes 1 ftype ++ name

/-- The entries packed in a payload, up to the first that is cut off. -/
def parseDirEntries : Nat → Bytes → List DirEntry
  | 0, _ => []
  | fuel + 1, d =>
    if d.length < dirItemHdrSize then []
    else
      let nameEnd := dirItemHdrSize + leAt 2 0x1B d
      if d.length < nameEnd then []
      else
        ⟨leAt 8 0 d, (d.drop dirItemHdrSize).take (leAt 2 0x1B d), leAt 1 0x1D d⟩ ::
          parseDirEntries fuel (d.drop (nameEnd + leAt 2 0x19 d))

/-- The entry of a payload with this name. -/
def parseDirItems (d : Bytes) (name : Name) : Option (Nat × Nat) :=
  ((parseDirEntries d.length d).find? fun e => decide (e.name = name)).map fun e =>
    (e.inode, e.fileType)

def dotNames : List Name := [[0x2E], [0x2E, 0x2E]]

/-- The entries of a payload other than `.` and `..`. -/
def parseDirItemsAll (d : Bytes) : List DirEntry :=
  (parseDirEntries d.length d).filter fun e => !decide (e.name ∈ dotNames)

/-- The name of a payload that holds a single entry, as the removal loops read it. -/
def dirItemName (d : Bytes) : Option Name :=
  if d.length < dirItemHdrSize then none
  else if d.length < dirItemHdrSize + leAt 2 0x1B d then none
  else some ((d.drop dirItemHdrSize).take (leAt 2 0x1B d))

/-! ### INODE_REF -/

structure InodeRefEntry where
  idx : Nat
  name : Name
  deriving DecidableEq, Repr

def encodeInodeRef (idxOff : Nat) (name : Name) : Bytes :=
  leBytes 8 idxOff ++ leBytes 2 name.length ++ name

def parseInodeRefsFrom : Nat → Bytes → List InodeRefEntry
  | 0, _ => []
  | fuel + 1, d =>
    if d.length < 10 then []
    else if d.length < 10 + leAt 2 8 d then []
    else ⟨leAt 8 0 d, (d.drop 10).take (leAt 2 8 d)⟩ ::
      parseInodeRefsFrom fuel (d.drop (10 + leAt 2 8 d))

def parseInodeRefEntries (d : Bytes) : List InodeRefEntry := parseInodeRefsFrom d.length d

def encodeInodeRefEntries (entries : List InodeRefEntry) : Bytes :=
  entries.flatMap fun e => encodeInodeRef e.idx e.name

/-! ### XATTR_ITEM -/

def encodeXattrItemPayload (name : Name) (value : Bytes) : Bytes :=
  zeros 0x19 ++ leBytes 2 value.length ++ leBytes 2 name.length ++ zeros 1 ++ name ++ value

def parseXattrItem (d : Bytes) : Option (Name × Bytes) :=
  if d.length < dirItemHdrSize then none
  else if d.length < dirItemHdrSize + leAt 2 0x1B d + leAt 2 0x19 d then none
  else some ((d.drop dirItemHdrSize).take (leAt 2 0x1B d),
    (d.drop (dirItemHdrSize + leAt 2 0x1B d)).take (leAt 2 0x19 d))

end Btrfs
