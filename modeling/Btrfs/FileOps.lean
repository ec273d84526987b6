/-
  Btrfs/FileOps.lean
  ==================
  **The mutating calls** — `write.go`, `mkdir.go`, `symlink.go`, `link.go`, `delete.go`,
  `rename.go`, `truncate.go`, `setattr.go`, `xattr_write.go`.

  A call is a sequence of tree mutations, each of which publishes its new root before the
  next one starts.  A step that fails returns its error and leaves what the steps before
  it did.  Some errors are dropped on the way; the model drops the same ones.

  The clock is an argument: a call stamps every time it writes with the one `now`.
-/
import Btrfs.Files

namespace Btrfs

open Lib

abbrev FileM (σ : Type) := EStateM Err σ

/-- Go on after an error that means "not found". -/
def tolerateNotFound {σ : Type} (format : String) (x : FileM σ Unit) : FileM σ Unit := fun s =>
  match x s with
  | .ok _ s' => .ok () s'
  | .error e s' => if e.is .errNotFound then .ok () s' else .error (.wrap format [] e) s'

/-- Go on after any error. -/
def ignoreError {σ : Type} (x : FileM σ Unit) : FileM σ Unit := fun s =>
  match x s with
  | .ok _ s' => .ok () s'
  | .error _ s' => .ok () s'

/-- Put a message around the error of a step. -/
def step {σ α : Type} (format : String) (args : List ErrArg) (x : FileM σ α) : FileM σ α :=
  wrapErr (.wrap format args) x

variable {σ : Type} (B : Backend σ)

/-! ## 1. Space and data -/

def allocDataBytes (size : Nat) : FileM σ (Nat × Nat) := fun s =>
  match (B.vol s).sm.allocDataBytes size (B.sb s).sectorSize with
  | .error e => .error e s
  | .ok (r, sm) => .ok r (B.setVol { B.vol s with sm := sm } s)

def allocDataBytesUpTo (maxSize : Nat) : FileM σ (Nat × Nat) := fun s =>
  match (B.vol s).sm.allocDataBytesUpTo maxSize (B.sb s).sectorSize with
  | .error e => .error e s
  | .ok (r, sm) => .ok r (B.setVol { B.vol s with sm := sm } s)

def writeData (phys : Nat) (data : Bytes) (s : σ) : σ :=
  B.setVol { B.vol s with dev := writeAt (B.vol s).dev phys data } s

/-- Return the extent of one item to the free list. -/
def freeExtent (s : σ) (d : Bytes) : σ :=
  match extentSpan (B.sb s) extentDataRegular d with
  | some e => B.setVol { B.vol s with sm := (B.vol s).sm.freeRange e.start e.size } s
  | none => s

/-- Return the extents of an inode to the free list. -/
def freeInodeExtents (ino : Nat) (s : σ) : σ :=
  match B.collectPrefixItems s ino typeExtentData with
  | .error _ => s
  | .ok items => (items.map Prod.snd).foldl (freeExtent B) s

def isAllZero (b : Bytes) : Bool := b.all (· == 0)

def maxInlineSize : Nat := 2048

/-- The nbytes an inode with this content records. -/
def classifyExtent (data : Bytes) (sectorSize : Nat) : Nat :=
  if data.isEmpty then 0
  else if data.length ≤ maxInlineSize then data.length
  else if isAllZero data then 0
  else (data.length + sectorSize - 1) / sectorSize * sectorSize

/-- The greedy loop of `writeExtents`: one extent a turn, from the largest free one.  Every turn
    stores at least a byte, so that the length of the data bounds the turns. -/
def writeChunks (ino generation : Nat) : Nat → Nat → Bytes → FileM σ Unit
  | 0, _, data => if data.isEmpty then pure () else throw (.errorf "out of turns" [])
  | turns + 1, fileOffset, data =>
    if data.isEmpty then pure ()
    else do
      let (phys, allocated) ← step "alloc data (%d bytes left): %w" [.num data.length]
        (allocDataBytesUpTo B data.length)
      let chunk := data.take allocated
      modify (writeData B phys chunk)
      let sb := B.sb (← get)
      step "insert extent at file offset %d: %w" [.num fileOffset]
        (B.cowInsert ⟨ino, typeExtentData, fileOffset⟩
          (encodeExtentData (sb.physToLog phys) allocated 0 chunk.length generation))
      writeChunks ino generation turns (fileOffset + chunk.length) (data.drop allocated)

/-- Store data in one extent, or greedily in several when no free one is large enough. -/
def placeData (ino : Nat) (data : Bytes) (generation : Nat) : FileM σ Unit := fun s =>
  match allocDataBytes B data.length s with
  | .error _ s => writeChunks B ino generation data.length 0 data s
  | .ok (physData, physSize) s =>
    let s := writeData B physData data s
    step "insert extent: %w" []
      (B.cowInsert ⟨ino, typeExtentData, 0⟩
        (encodeExtentData ((B.sb s).physToLog physData) physSize 0 data.length generation)) s

/-- Write the body of an inode: inline, as a hole, as one extent, or greedily as several. -/
def writeExtents (ino : Nat) (data : Bytes) (generation : Nat) : FileM σ Unit :=
  if data.isEmpty then
    step "insert empty extent: %w" []
      (B.cowInsert ⟨ino, typeExtentData, 0⟩ (encodeExtentDataInline [] generation))
  else if data.length ≤ maxInlineSize then
    step "insert inline extent: %w" []
      (B.cowInsert ⟨ino, typeExtentData, 0⟩ (encodeExtentDataInline data generation))
  else if isAllZero data then
    step "insert sparse extent: %w" []
      (B.cowInsert ⟨ino, typeExtentData, 0⟩ (encodeExtentData 0 0 0 data.length generation))
  else placeData B ino data generation

/-! ## 2. Inodes and directory entries -/

/-- One above the largest inode number in use. -/
def nextInodeNum (s : σ) : Nat :=
  (B.walkItems s).foldl
    (fun m e => if e.1.typ = typeInodeItem ∧ m < e.1.objID then e.1.objID else m) rootDirObjID + 1

/-- One above the largest index of a directory. -/
def nextDirIndexOffset (s : σ) (dirIno : Nat) : Nat :=
  match B.collectPrefixItems s dirIno typeDirIndex with
  | .ok items => items.foldl (fun m e => max m e.1.offset) 2 + 1
  | .error _ => 3

/-- Rewrite the INODE_ITEM of an inode. -/
def editInode (ino : Nat) (readErr updateErr : String) (f : σ → Bytes → Bytes) : FileM σ Unit :=
  fun s =>
    match B.searchTree s ⟨ino, typeInodeItem, 0⟩ with
    | .error e => .error (.wrap readErr [.num ino] e) s
    | .ok d => step updateErr [.num ino] (B.cowUpdate ⟨ino, typeInodeItem, 0⟩ (f s d)) s

/-- Change the link count of a directory, and its times. -/
def adjustDirNlink (now : Timespec) (dirIno : Nat) (delta : Int) : FileM σ Unit :=
  editInode B dirIno "read parent inode %d: %w" "update parent inode %d: %w" fun s d =>
    let d := putLE 4 inodeOffNLink ((leAt 4 inodeOffNLink d : Int) + delta).toNat d
    let d := bumpInodeTransIDSequence ((B.sb s).generation + 1) d
    writeBtrfsTimespec inodeOffMTime now (writeBtrfsTimespec inodeOffCTime now d)

def touchDir (now : Timespec) (dirIno : Nat) : FileM σ Unit := adjustDirNlink B now dirIno 0

/-- An entry counts its name twice. -/
def dirEntrySizeDelta (name : Name) : Int := 2 * name.length

/-- Change the size of a directory. -/
def adjustDirSize (dirIno : Nat) (delta : Int) : FileM σ Unit :=
  if delta = 0 then pure ()
  else
    editInode B dirIno "read dir inode %d for size: %w" "update dir inode %d size: %w" fun _ d =>
      putLE 8 inodeOffSize ((leAt 8 inodeOffSize d : Int) + delta).toNat d

/-- Add a back-reference to the INODE_REF item of a child and its parent. -/
def appendInodeRef (childIno parentIno idx : Nat) (name : Name) : FileM σ Unit := fun s =>
  let refKey : Key := ⟨childIno, typeInodeRef, parentIno⟩
  match B.searchTree s refKey with
  | .ok d =>
    let entries := parseInodeRefEntries d
    if entries.any fun e => decide (e.name = name) then .ok () s
    else step "append inode ref: %w" []
      (B.cowUpdate refKey (encodeInodeRefEntries (entries ++ [⟨idx, name⟩]))) s
  | .error _ => step "insert inode ref: %w" [] (B.cowInsert refKey (encodeInodeRef idx name)) s

/-- Drop a back-reference, and the item with the last one. -/
def removeInodeRef (childIno parentIno : Nat) (name : Name) : FileM σ Unit := fun s =>
  let refKey : Key := ⟨childIno, typeInodeRef, parentIno⟩
  match B.searchTree s refKey with
  | .error _ => .ok () s
  | .ok d =>
    let kept := (parseInodeRefEntries d).filter fun e => decide (e.name ≠ name)
    if kept.isEmpty then step "drop inode ref: %w" [] (B.cowDelete refKey) s
    else step "shrink inode ref: %w" [] (B.cowUpdate refKey (encodeInodeRefEntries kept)) s

/-- Delete the first DIR_INDEX item of a directory with this name, if there is one. -/
def removeDirIndex (format : String) (dirIno : Nat) (name : Name) : FileM σ Unit := fun s =>
  let items := match B.collectPrefixItems s dirIno typeDirIndex with
    | .ok items => items
    | .error _ => []
  match items.find? fun e => decide (dirItemName e.2 = some name) with
  | some e => step format [] (B.cowDelete e.1) s
  | none => .ok () s

/-- Insert the DIR_INDEX and the DIR_ITEM of a new entry. -/
def insertDirEntry (indexErr itemErr : String) (args : List ErrArg) (dirIno idxOff : Nat)
    (name : Name) (entry : Bytes) : FileM σ Unit := do
  step indexErr args (B.cowInsert ⟨dirIno, typeDirIndex, idxOff⟩ entry)
  step itemErr args (B.cowInsert ⟨dirIno, typeDirItem, hashDirName name⟩ entry)

/-! ## 3. Creating -/

/-- Look at the state without changing it. -/
def reading {α : Type} (f : σ → Except Err α) : FileM σ α := fun s =>
  match f s with
  | .ok a => .ok a s
  | .error e => .error e s

/-- The directory and the last name of a path. -/
def splitPath (p : Path) : Path × Name := (p.dropLast, p.getLast?.getD [])

def createInodeWithDirEntry (now : Timespec) (parentIno : Nat) (name : Name) (data : Bytes)
    (mode fileType : Nat) (opLabel : String) : FileM σ Unit := do
  let s ← get
  let ino := nextInodeNum B s
  let generation := (B.sb s).generation + 1
  let nbytes := classifyExtent data (B.sb s).sectorSize
  step "btrfs %s: insert inode: %w" [.str opLabel]
    (B.cowInsert ⟨ino, typeInodeItem, 0⟩
      (encodeInodeItem data.length mode generation nbytes 1 now))
  step "btrfs %s: write extents: %w" [.str opLabel] (writeExtents B ino data generation)
  let idxOff := nextDirIndexOffset B (← get) parentIno
  insertDirEntry B "btrfs %s: insert dir index: %w" "btrfs %s: insert dir item: %w" [.str opLabel]
    parentIno idxOff name (encodeDirItem ino typeInodeItem fileType name)
  step "btrfs %s: insert inode ref: %w" [.str opLabel]
    (B.cowInsert ⟨ino, typeInodeRef, parentIno⟩ (encodeInodeRef idxOff name))
  step "btrfs %s: grow parent size: %w" [.str opLabel]
    (adjustDirSize B parentIno (dirEntrySizeDelta name))
  step "btrfs %s: touch parent: %w" [.str opLabel] (touchDir B now parentIno)
  B.updateFsTreeRoot

/-- S_IFREG and the permission bits. -/
def fileMode (perm : Nat) : Nat := 0o100000 ||| (perm &&& 0o777)

def createFile (now : Timespec) (parentIno : Nat) (name : Name) (data : Bytes) (perm : Nat) :
    FileM σ Unit :=
  createInodeWithDirEntry B now parentIno name data (fileMode perm) ftRegFile "create"

/-- Replace the content of an inode.  Its INODE_ITEM is edited if it can be found; when the edit
    fails, the error is dropped. -/
def overwriteFile (now : Timespec) (ino : Nat) (newData : Bytes) : FileM σ Unit := do
  let generation := (B.sb (← get)).generation + 1
  modify (freeInodeExtents B ino)
  step "btrfs overwrite: remove extents: %w" [] (B.cowDeletePrefix ino typeExtentData)
  step "btrfs overwrite: write extents: %w" [] (writeExtents B ino newData generation)
  ignoreError (editInode B ino "" "" fun s d =>
    let d := putLE 8 inodeOffSize newData.length d
    let d := putLE 8 inodeOffNBytes (classifyExtent newData (B.sb s).sectorSize) d
    let d := bumpInodeTransIDSequence ((B.sb s).generation + 1) d
    writeBtrfsTimespec inodeOffMTime now (writeBtrfsTimespec inodeOffCTime now d))
  B.updateFsTreeRoot

def writeFile (now : Timespec) (p : Path) (data : Bytes) (perm : Nat) : FileM σ Unit := do
  let (dir, name) := splitPath p
  let parentIno ← step "btrfs write: parent dir %q: %w" [.names dir]
    (reading fun s => pathLookupIno B s dir)
  match lookupDirEntry B (← get) parentIno name with
  | .ok (childObjID, childFtype) =>
    if childFtype = ftDir then throw (.errorf "btrfs write: %q is a directory" [.names p])
    else overwriteFile B now childObjID data
  | .error _ => createFile B now parentIno name data perm

/-- S_IFDIR and the permission bits. -/
def dirMode (perm : Nat) : Nat := 0o040000 ||| (perm &&& 0o777)

/-- `makeDir` once the name is known to be free. -/
def createDir (now : Timespec) (parentIno : Nat) (name : Name) (perm : Nat) : FileM σ Unit := do
  let s ← get
  let ino := nextInodeNum B s
  let generation := (B.sb s).generation + 1
  step "btrfs mkdir: insert inode: %w" []
    (B.cowInsert ⟨ino, typeInodeItem, 0⟩ (encodeInodeItem 0 (dirMode perm) generation 0 1 now))
  let idxOff := nextDirIndexOffset B (← get) parentIno
  insertDirEntry B "btrfs mkdir: insert parent dir index: %w"
    "btrfs mkdir: insert parent dir item: %w" [] parentIno idxOff name
    (encodeDirItem ino typeInodeItem ftDir name)
  step "btrfs mkdir: insert inode ref: %w" []
    (B.cowInsert ⟨ino, typeInodeRef, parentIno⟩ (encodeInodeRef idxOff name))
  step "btrfs mkdir: grow parent size: %w" []
    (adjustDirSize B parentIno (dirEntrySizeDelta name))
  step "btrfs mkdir: touch parent: %w" [] (touchDir B now parentIno)
  B.updateFsTreeRoot

def makeDir (now : Timespec) (p : Path) (perm : Nat) : FileM σ Unit := do
  let (dir, name) := splitPath p
  let parentIno ← step "btrfs mkdir: parent %q: %w" [.names dir]
    (reading fun s => pathLookupIno B s dir)
  match lookupDirEntry B (← get) parentIno name with
  | .ok _ => throw (.errorf "btrfs mkdir: %q already exists" [.names p])
  | .error _ => createDir B now parentIno name perm

def symlinkMode : Nat := 0o120000 ||| 0o777

def symlinkInode (now : Timespec) (target : Bytes) (linkPath : Path) : FileM σ Unit :=
  if target.isEmpty then throw (.errorf "btrfs symlink: empty target" [])
  else
    let (dir, name) := splitPath linkPath
    if name.isEmpty then throw (.errorf "btrfs symlink: invalid link path %q" [.names linkPath])
    else do
      let parentIno ← step "btrfs symlink: parent dir %q: %w" [.names dir]
        (reading fun s => pathLookupIno B s dir)
      match lookupDirEntry B (← get) parentIno name with
      | .ok _ => throw (.errorf "btrfs symlink: %q already exists" [.names linkPath])
      | .error _ =>
        createInodeWithDirEntry B now parentIno name target symlinkMode ftSymlink "symlink"

/-- `linkInode` once source and destination are known to be in order. -/
def addLink (now : Timespec) (src : InodeItem) (newParentIno : Nat) (newName : Name) :
    FileM σ Unit := do
  let fileType := if src.isSymlink then ftSymlink else ftRegFile
  let idxOff := nextDirIndexOffset B (← get) newParentIno
  insertDirEntry B "btrfs link: insert dir index: %w" "btrfs link: insert dir item: %w" []
    newParentIno idxOff newName (encodeDirItem src.num typeInodeItem fileType newName)
  step "btrfs link: %w" [] (appendInodeRef B src.num newParentIno idxOff newName)
  editInode B src.num "btrfs link: refetch inode: %w" "btrfs link: update inode: %w" fun s d =>
    let d := putLE 4 inodeOffNLink (leAt 4 inodeOffNLink d + 1) d
    let d := bumpInodeTransIDSequence ((B.sb s).generation + 1) d
    writeBtrfsTimespec inodeOffCTime now d
  step "btrfs link: grow parent size: %w" []
    (adjustDirSize B newParentIno (dirEntrySizeDelta newName))
  B.updateFsTreeRoot

def linkInode (now : Timespec) (oldPath newPath : Path) : FileM σ Unit := do
  let src ← step "btrfs link: source %q: %w" [.names oldPath]
    (reading fun s => pathLookup B s oldPath)
  if src.isDir then
    throw (.errorf "btrfs link: %q is a directory; hardlinks to directories are not allowed"
      [.names oldPath])
  else
    let (newDir, newName) := splitPath newPath
    if newName.isEmpty then throw (.errorf "btrfs link: invalid destination %q" [.names newPath])
    else do
      let newParentIno ← step "btrfs link: dst parent %q: %w" [.names newDir]
        (reading fun s => pathLookupIno B s newDir)
      match lookupDirEntry B (← get) newParentIno newName with
      | .ok _ => throw (.errorf "btrfs link: destination %q already exists" [.names newPath])
      | .error _ => addLink B now src newParentIno newName

end Btrfs
