/-
  Btrfs/ReadPath.lean
  ===================
  **The read path on bytes** — `btree.go`, `inode.go`, `dir.go`, `read.go`, `openfile.go`
  and the read calls of `fs.go` and `subvol.go`.

  The readers of the driver are handed an `io.ReaderAt` and use it in two ways: `readNode`
  asks for the node block at a logical address, everything else asks for bytes at an
  offset.  A reader is a program that asks such questions; what answers them, the device
  or a cache in front of it, is not its concern.

  Every access to a buffer is checked.  On-disk lengths and offsets are 64-bit words: sums
  wrap, and a word turned into an `int` may come out negative.
-/
import Btrfs.Lib.Ask
import Btrfs.ItemBytes
import Btrfs.LzoFraming
import Btrfs.OpenFile

namespace Btrfs.Raw

open Lib

/-! ## 1. Questions, words and the helpers of `safeio` -/

/-- What a reader is asked: a node by its logical address, or bytes at an offset. -/
inductive Question
  | node (logAddr : Nat)
  | data (off n : Nat)
  deriving DecidableEq, Repr

abbrev Answer := Except Err Bytes

abbrev ReadM := Ask Question Answer Err

def readNode (logAddr : Nat) : ReadM Bytes := .ask (.node logAddr) fun r => .done (Checked.ofExcept r)

/-- Fill a buffer of `n` bytes. -/
def readBytes (off n : Nat) : ReadM Bytes := .ask (.data off n) fun r => .done (Checked.ofExcept r)

abbrev field (w off : Nat) (b : Bytes) : Go Nat := fieldAt w off b

abbrev part (b : Bytes) (lo hi : Nat) : Go Bytes := slice b lo hi

/-- `fmt.Errorf` around the error of a call. -/
def wrapping {α : Type} (format : String) (args : List ErrArg) (r : Except Err α) : Except Err α :=
  r.mapError (.wrap format args)

/-- The difference of two words. -/
def sub64 (a b : Nat) : Nat := if b ≤ a then a - b else a + 2 ^ 64 - b

/-- A word as a signed integer. -/
def int64 (x : Nat) : Int := if x < 2 ^ 63 then x else x - 2 ^ 64

def makeBytes (n limit : Int) : Except Err Bytes :=
  if n < 0 ∨ limit < n then .error (.sentinel .errLimit) else .ok (zeros n.toNat)

def checkBounds (off n len : Int) : Except Err Unit :=
  if off < 0 ∨ n < 0 ∨ len < off ∨ len - off < n then .error (.sentinel .errOutOfBounds) else .ok ()

/-- An `io.ReaderAt`: an error, or as many bytes as were asked for. -/
structure ReaderAt where
  readAt : Nat → Nat → Except Err Bytes
  length_eq : ∀ {off n : Nat} {b : Bytes}, readAt off n = .ok b → b.length = n

/-! ## 2. Nodes -/

def readNodeUncached (r : ReaderAt) (sb : Superblock) (logAddr : Nat) : Except Err Bytes := do
  let phys ← sb.physAddr logAddr
  let buf ← wrapping "btrfs: node alloc (nodeSize=%d): %w" [.num sb.nodeSize]
    (makeBytes sb.nodeSize maxNodeSize)
  wrapping "btrfs: read node at phys 0x%X: %w" [.num phys] (r.readAt phys buf.length)

/-- What a device answers. -/
def answers (r : ReaderAt) (sb : Superblock) : Question → Answer
  | .node logAddr => readNodeUncached r sb logAddr
  | .data off n => r.readAt off n

/-- How many fixed-size records a buffer holds, at most `n`: the capacity the item list is made
    with. -/
def itemsThatFit (b : Bytes) (n stride : Nat) : Int :=
  let fit := (b.length - nodeHdrSize : Int).tdiv stride
  if fit < 0 then 0 else if fit < n then fit else n

structure NodeHeader where
  logAddr : Nat
  nItems : Nat
  level : Nat
  deriving DecidableEq, Repr

/-- `parseNodeHeader`, with all its fields. -/
def readHeader (b : Bytes) : Go NodeHeader := do
  let logAddr ← field 8 0x30 b
  let nItems ← field 4 0x60 b
  let level ← field 1 0x64 b
  return ⟨logAddr, nItems, level⟩

def readKey (b : Bytes) (off : Nat) : Go Key := do
  let objID ← field 8 off b
  let typ ← field 1 (off + 8) b
  let offset ← field 8 (off + 9) b
  return ⟨objID, typ, offset⟩

/-- Where the key pointer `i` begins. -/
def ptrOff (i : Nat) : Nat := nodeHdrSize + i * keyPtrSize

/-- The child of the last key pointer of the leading run that does not exceed the key, or 0. -/
def chooseChild (b : Bytes) (want : Key) : Nat → Nat → Nat → Go Nat
  | 0, _, chosen => .ok chosen
  | left + 1, i, chosen =>
    if b.length < ptrOff i + keyPtrSize then .ok chosen
    else do
      let k ← readKey b (ptrOff i)
      if compareKeys k want.objID want.typ want.offset ≤ 0 then do
        let child ← field 8 (ptrOff i + 17) b
        chooseChild b want left (i + 1) child
      else .ok chosen

/-- The loop of `searchTree`; `prevLevel` is the level of the parent. -/
def searchFrom (want : Key) : Nat → List Nat → Option Nat → Nat → ReadM (Bytes × ItemDesc)
  | 0, _, _, _ => .fail (errDepth "btrfs: btree")
  | d + 1, seen, prevLevel, logAddr =>
    if logAddr ∈ seen then .fail (errGuard "searchTree")
    else do
      let buf ← readNode logAddr
      let hdr ← readHeader buf
      if prevLevel.any fun l => decide (hdr.level + 1 ≠ l) then
        .fail (.wrap "btrfs: searchTree: child level %d not %d below parent: %w"
          [.num hdr.level, .num 1] (.sentinel .errNotFound))
      else if hdr.level = 0 then do
        let items ← parseLeafItems buf hdr.nItems
        match items.find? fun it => decide (it.k = want) with
        | some it => return (buf, it)
        | none => .fail (errKeyNotFound want)
      else do
        let chosen ← chooseChild buf want hdr.nItems 0 0
        if chosen = 0 then .fail (errKeyNotFound want)
        else searchFrom want d (logAddr :: seen) (some hdr.level) chosen

def searchTree (root : Nat) (want : Key) : ReadM (Bytes × ItemDesc) :=
  searchFrom want (maxBtreeDepth + 1) [] none root

/-- The children a prefix walk goes on to. -/
def prefixChildren (b : Bytes) (objID typ : Nat) : Nat → Nat → List Nat → Go (List Nat)
  | 0, _, children => .ok children
  | left + 1, i, children =>
    if b.length < ptrOff i + keyPtrSize then .ok children
    else do
      let k ← readKey b (ptrOff i)
      if objID < k.objID ∨ k.objID = objID ∧ typ < k.typ then .ok children
      else do
        let child ← field 8 (ptrOff i + 17) b
        prefixChildren b objID typ left (i + 1) (children ++ [child])

section Walk

variable {α : Type} (visit : α → Bytes → ItemDesc → Go (α × Bool)) (objID typ : Nat)

/-- Hand the matching items of a leaf to the callback until it has had enough. -/
def visitItems (b : Bytes) : List ItemDesc → α → Go (α × Bool)
  | [], acc => .ok (acc, true)
  | it :: items, acc =>
    if it.k.objID = objID ∧ it.k.typ = typ then do
      let r ← visit acc b it
      if r.2 then visitItems b items r.1 else .ok r
    else visitItems b items acc

/-- The stack loop of `walkPrefixLeaves`.  The node guard bounds the number of turns. -/
def walkPrefixFrom : Nat → List (Nat × Nat) → List Nat → α → ReadM α
  | _, [], _, acc => return acc
  | fuel, (logAddr, depth) :: stack, seen, acc =>
    if maxBtreeDepth < depth then .fail (errDepth "btrfs: btree")
    else
      match fuel with
      | 0 => .fail (errGuard "walkPrefixLeaves")
      | fuel + 1 =>
        if logAddr ∈ seen then .fail (errGuard "walkPrefixLeaves")
        else do
          let buf ← readNode logAddr
          let hdr ← readHeader buf
          if hdr.level = 0 then do
            let items ← parseLeafItems buf hdr.nItems
            let r ← visitItems visit objID typ buf items acc
            if r.2 then walkPrefixFrom fuel stack (logAddr :: seen) r.1 else return r.1
          else do
            let children ← prefixChildren buf objID typ hdr.nItems 0 []
            walkPrefixFrom fuel (children.map (fun c => (c, depth + 1)) ++ stack)
              (logAddr :: seen) acc

def walkPrefixLeaves (root : Nat) (acc : α) : ReadM α :=
  walkPrefixFrom visit objID typ maxTreeNodes [(root, 0)] [] acc

end Walk

/-- The callback of `collectPrefixItems`. -/
def collectItem (out : List (Key × Bytes)) (b : Bytes) (it : ItemDesc) :
    Go (List (Key × Bytes) × Bool) := do
  let d ← it.data b
  return (out ++ [(it.k, d)], true)

def collectPrefixItems (root objID typ : Nat) : ReadM (List (Key × Bytes)) := do
  let out ← walkPrefixLeaves collectItem objID typ root []
  if out.isEmpty then
    .fail (.wrap "btrfs: no items for objID=%d type=0x%02X: %w" [.num objID, .num typ]
      (.sentinel .errNotFound))
  else return out

/-! ## 3. Inodes and directories -/

/-- The payload a search finds. -/
def searchData (root : Nat) (want : Key) : ReadM Bytes := do
  let r ← searchTree root want
  r.2.data r.1

def readInode (root ino : Nat) : ReadM InodeItem := do
  let d ← (searchData root ⟨ino, typeInodeItem, 0⟩).mapErr (.wrap "btrfs: inode %d: %w" [.num ino])
  if d.length < inodeItemSize then
    .fail (.errorf "btrfs: inode %d: INODE_ITEM too short (%d bytes)" [.num ino, .num d.length])
  else do
    let size ← field 8 inodeOffSize d
    let nlink ← field 4 inodeOffNLink d
    let mode ← field 4 inodeOffMode d
    return ⟨ino, mode % 2 ^ 16, size, nlink⟩

/-- The first payload that holds the name. -/
def findEntry (name : Name) : List (Key × Bytes) → Go (Option (Nat × Nat))
  | [] => .ok none
  | e :: items => do
    match ← (parseDirItems e.2 name).attempt with
    | .ok r => return some r
    | .error _ => findEntry name items

def errNoEntry (dirIno : Nat) (name : Name) : Err :=
  .wrap "btrfs: %q not found in inode %d: %w: %w" [.names [name], .num dirIno] (.sentinel .errNotFound)

/-- The scan over the DIR_INDEX items. -/
def lookupIndexed (root dirIno : Nat) (name : Name) : ReadM (Nat × Nat) := do
  match ← (collectPrefixItems root dirIno typeDirIndex).attempt with
  | .error _ => .fail (errNoEntry dirIno name)
  | .ok items =>
    match ← (findEntry name items : Go _) with
    | some r => return r
    | none => .fail (errNoEntry dirIno name)

/-- The DIR_ITEM with the hash of the name first. -/
def lookupDirEntry (root dirIno : Nat) (name : Name) : ReadM (Nat × Nat) := do
  match ← (searchData root ⟨dirIno, typeDirItem, hashDirName name⟩).attempt with
  | .error _ => lookupIndexed root dirIno name
  | .ok d =>
    match ← (parseDirItems d name).attempt with
    | .ok r => return r
    | .error _ => lookupIndexed root dirIno name

def walkPath (root : Nat) : Nat → Path → ReadM Nat
  | ino, [] => return ino
  | ino, name :: p => do
    let r ← lookupDirEntry root ino name
    walkPath root r.1 p

def pathLookup (root : Nat) (p : Path) : ReadM InodeItem :=
  if p.isEmpty then readInode root rootDirObjID
  else do
    let ino ← (walkPath root rootDirObjID p).mapErr (.wrap "btrfs: %q: %w" [.names p])
    (readInode root ino).mapErr (.wrap "btrfs: stat inode for %q: %w" [.names p])

def readDir (root dirIno : Nat) : ReadM (List DirEntry) := do
  match ← (collectPrefixItems root dirIno typeDirIndex).attempt with
  | .error _ => return []
  | .ok items => (items.foldlM (fun entries e => do return entries ++ (← parseDirItemsAll e.2)) [] : Go _)

/-! ## 4. File data -/

variable (dec : Decoders) (sb : Superblock) (dev : Int)

def decompressExtent (src : Bytes) (compression ramBytes : Nat) : Go Bytes :=
  if compression = compressionNone then .ok src
  else if compression = compressionZlib then Checked.ofExcept (decompressZlib dec src ramBytes)
  else if compression = compressionLzo then decompressLzo dec src ramBytes
  else if compression = compressionZstd then Checked.ofExcept (decompressZstd dec src ramBytes)
  else .error (.err (.errorf "btrfs: unknown compression code %d" [.num compression]))

def atOffset {α : Type} (num fileOffset : Nat) : Except Err α → Except Err α :=
  wrapping "btrfs: inode %d extent at file offset %d: %w" [.num num, .num fileOffset]

/-- An inline extent: the bytes behind the header, as many as the file has left. -/
def inlineBytes (num fileOffset remaining : Nat) (d : Bytes) : Go Bytes := do
  let compression ← field 1 extDataOffCompression d
  let rawInline ← part d extDataHdrSize d.length
  let ram ← field 8 extDataOffRamBytes d
  let inlineData ← (decompressExtent dec rawInline compression (clampRAM ram remaining)).mapErr
    (.wrap "btrfs: inode %d inline extent at file offset %d: %w" [.num num, .num fileOffset])
  part inlineData 0 (min inlineData.length remaining)

/-- A compressed extent, read and expanded whole: the window of `numBytes` bytes at the extent
    offset. -/
def compressedBytes (num fileOffset numBytes : Nat) (d : Bytes) : ReadM Bytes := do
  let compression ← field 1 extDataOffCompression d
  let diskBytenr ← field 8 extDataOffDiskBytenr d
  let diskNumBytes ← field 8 extDataOffDiskNumBytes d
  let extOffset ← field 8 extDataOffOffset d
  let buf ← wrapping "btrfs: inode %d compressed extent disk_num_bytes %d: %w"
    [.num num, .num diskNumBytes] (makeBytes (int64 diskNumBytes) dev)
  let phys ← atOffset num fileOffset (sb.physAddr diskBytenr)
  let compressed ← (readBytes phys buf.length).mapErr
    (.wrap "btrfs: read compressed extent data: %w" [])
  let ram ← field 8 extDataOffRamBytes d
  let plain ← (decompressExtent dec compressed compression
    (clampRAM ram (word (extOffset + numBytes)))).mapErr
    (.wrap "btrfs: inode %d extent at file offset %d: %w" [.num num, .num fileOffset])
  let _ ← wrapping "btrfs: decompressed extent too short for inode %d at file offset %d: %w"
    [.num num, .num fileOffset] (checkBounds (int64 extOffset) (int64 numBytes) plain.length)
  part plain extOffset (word (extOffset + numBytes))

/-- A regular extent goes to `[fileOffset, fileOffset+numBytes)` of the output. -/
def readRegular (i : InodeItem) (fileOffset : Nat) (d : Bytes) (acc : Assembled) :
    ReadM Assembled := do
  let num ← field 8 extDataOffNumBytes d
  let stop := word (fileOffset + num)
  if stop < fileOffset ∨ fileOffset < acc.prevEnd then
    .fail (.wrap "btrfs: inode %d extent at file offset %d overlaps the previous extent (ends at %d): %w"
      [.num i.num, .num fileOffset, .num acc.prevEnd] (.sentinel .errOutOfBounds))
  else do
    let diskBytenr ← field 8 extDataOffDiskBytenr d
    let extOffset ← field 8 extDataOffOffset d
    let compression ← field 1 extDataOffCompression d
    if diskBytenr = 0 then return { acc with prevEnd := stop }
    else do
      let numBytes := min num (sub64 i.size fileOffset)
      let _ ← wrapping "btrfs: inode %d extent dest [%d,+%d): %w"
        [.num i.num, .num fileOffset, .num numBytes]
        (checkBounds (int64 fileOffset) (int64 numBytes) acc.out.length)
      if compression = compressionNone then do
        let phys ← atOffset i.num fileOffset (sb.physAddr (word (diskBytenr + extOffset)))
        let dst ← part acc.out fileOffset (word (fileOffset + numBytes))
        let b ← (readBytes phys dst.length).mapErr (.wrap "btrfs: read extent data: %w" [])
        return ⟨putAt fileOffset b acc.out, stop⟩
      else do
        let b ← compressedBytes dec sb dev i.num fileOffset numBytes d
        let dst ← part acc.out fileOffset (word (fileOffset + numBytes))
        return ⟨putAt fileOffset (b.take dst.length) acc.out, stop⟩

/-- An inline extent goes where `safeio.Slice` finds room. -/
def readInline (i : InodeItem) (fileOffset : Nat) (d : Bytes) (acc : Assembled) : Go Assembled := do
  let b ← inlineBytes dec i.num fileOffset (sub64 i.size fileOffset) d
  let _ ← Checked.ofExcept (wrapping "btrfs: inode %d inline extent dest [%d,+%d): %w"
    [.num i.num, .num fileOffset, .num b.length]
    (checkBounds (int64 fileOffset) (int64 b.length) acc.out.length))
  let out ← copyAt fileOffset b acc.out
  return { acc with out }

/-- One turn of the loop over the extents of a file. -/
def readExtent (i : InodeItem) (acc : Assembled) (e : Key × Bytes) : ReadM Assembled :=
  if i.size ≤ e.1.offset then return acc
  else if e.2.length ≤ extDataOffType then return acc
  else do
    let typ ← field 1 extDataOffType e.2
    if typ = extentDataInline then (readInline dec i e.1.offset e.2 acc : Go Assembled)
    else if typ = extentDataRegular then
      if e.2.length < extDataRegularSize then return acc
      else readRegular dec sb dev i e.1.offset e.2 acc
    else return acc

def readFileData (root : Nat) (i : InodeItem) : ReadM Bytes :=
  if i.size = 0 then return []
  else do
    let items ← (collectPrefixItems root i.num typeExtentData).mapErr
      (.wrap "btrfs: read extents for inode %d: %w" [.num i.num])
    let out ← ((makeBytes (int64 i.size) dev).mapError
      (.wrap "btrfs: inode %d declared size %d: %w" [.num i.num, .num i.size]) : Except Err Bytes)
    let acc ← items.foldlM (readExtent dec sb dev i) ⟨out, 0⟩
    return acc.out

/-! ## 5. Positional reads -/

def copyWindow (dst : Bytes) (off srcOff : Nat) (src : Bytes) : Go Bytes :=
  let hi := word (off + dst.length)
  let srcEnd := word (srcOff + src.length)
  let lo := max srcOff off
  let top := min srcEnd hi
  if top ≤ lo then .ok dst
  else do
    let _ ← part dst (sub64 lo off) (sub64 top off)
    let b ← part src (sub64 lo srcOff) (sub64 top srcOff)
    copyAt (sub64 lo off) b dst

def fillRegular (f : BtrfsFile) (off : Nat) (dst : Bytes) (fileOffset : Nat) (d : Bytes) :
    ReadM Bytes := do
  let num ← field 8 extDataOffNumBytes d
  let numBytes := min num (sub64 f.size fileOffset)
  let stop := word (fileOffset + numBytes)
  let hi := word (off + dst.length)
  -- wraps, or ends before the window
  if stop < fileOffset ∨ stop ≤ off then return dst
  else do
    let diskBytenr ← field 8 extDataOffDiskBytenr d
    if diskBytenr = 0 then return dst
    else do
      let extOffset ← field 8 extDataOffOffset d
      let compression ← field 1 extDataOffCompression d
      let lo := max fileOffset off
      let top := min stop hi
      if compression = compressionNone then do
        let phys ← atOffset f.num fileOffset
          (sb.physAddr (word (diskBytenr + extOffset + (lo - fileOffset))))
        let window ← part dst (sub64 lo off) (sub64 top off)
        let b ← (readBytes phys window.length).mapErr (.wrap "btrfs: read extent data: %w" [])
        return putAt (sub64 lo off) b dst
      else do
        let b ← compressedBytes dec sb dev f.num fileOffset numBytes d
        (copyWindow dst off fileOffset b : Go Bytes)

/-- One turn of the loop of `fill`. -/
def fillExtent (f : BtrfsFile) (off : Nat) (dst : Bytes) (e : Key × Bytes) : ReadM Bytes :=
  if f.size ≤ e.1.offset then return dst
  else if e.2.length ≤ extDataOffType then return dst
  else do
    let typ ← field 1 extDataOffType e.2
    if typ = extentDataInline then do
      let b ← (inlineBytes dec f.num e.1.offset (sub64 f.size e.1.offset) e.2 : Go Bytes)
      (copyWindow dst off e.1.offset b : Go Bytes)
    else if typ = extentDataRegular then
      if e.2.length < extDataRegularSize then return dst
      else fillRegular dec sb dev f off dst e.1.offset e.2
    else return dst

/-- The loop stops at the first item behind the window. -/
def fill (f : BtrfsFile) (off : Nat) : Bytes → List (Key × Bytes) → ReadM Bytes
  | dst, [] => return dst
  | dst, e :: items =>
    if word (off + dst.length) ≤ e.1.offset then return dst
    else do
      let dst ← fillExtent dec sb dev f off dst e
      fill f off dst items

/-- `ReadAt` of an open file into the buffer `p`: the part of the buffer that was filled, and
    whether the end of the file was reported. -/
def readAt (f : BtrfsFile) (p : Bytes) (off : Int) : ReadM (Bytes × Bool) :=
  if off < 0 then .fail (.errorf "btrfs: negative offset %d" [.num off])
  else if f.size ≤ off.toNat then return ([], true)
  else do
    let want := if f.size < word (off.toNat + p.length) then sub64 f.size off.toNat else p.length
    let dst ← part p 0 want
    let dst ← fill dec sb dev f off.toNat (zeros dst.length) f.items
    return (dst, decide (want < p.length))

/-- The check for overlaps when a file is opened. -/
def checkExtents (ino : Nat) : Nat → List (Key × Bytes) → Go Unit
  | _, [] => .ok ()
  | prevEnd, e :: items =>
    if e.2.length ≤ extDataOffType then checkExtents ino prevEnd items
    else do
      let typ ← field 1 extDataOffType e.2
      if typ ≠ extentDataRegular ∨ e.2.length < extDataRegularSize then checkExtents ino prevEnd items
      else do
        let num ← field 8 extDataOffNumBytes e.2
        let stop := word (e.1.offset + num)
        if stop < e.1.offset ∨ e.1.offset < prevEnd then
          .error (.err (.wrap "btrfs: inode %d extent at file offset %d overlaps the previous extent (ends at %d): %w"
            [.num ino, .num e.1.offset, .num prevEnd] (.sentinel .errOutOfBounds)))
        else checkExtents ino stop items

def openBtrfsFile (root : Nat) (p : Path) : ReadM BtrfsFile := do
  let i ← pathLookup root p
  if !i.isRegular then .fail (.errorf "btrfs: %q is not a regular file" [.names p])
  else
    -- a forged size is no size
    let size := if 2 ^ 62 < i.size then 2 ^ 62 else i.size
    if i.size = 0 then return ⟨i.num, size, []⟩
    else do
      let items ← (collectPrefixItems root i.num typeExtentData).mapErr
        (.wrap "btrfs: read extents for inode %d: %w" [.num i.num])
      let _ ← (checkExtents i.num 0 items : Go Unit)
      return ⟨i.num, size, items⟩

end Btrfs.Raw
