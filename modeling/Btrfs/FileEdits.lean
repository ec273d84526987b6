/-
  Btrfs/FileEdits.lean
  ====================
  **Removing, renaming and editing** — `delete.go`, `rename.go`, `truncate.go`,
  `setattr.go`, `xattr_write.go`.
-/
import Btrfs.FileOps

namespace Btrfs

open Lib

variable {σ : Type} (B : Backend σ)

/-! ## 1. Removing -/

/-- Drop one name of an inode that has others. -/
def unlinkInodeOnly (now : Timespec) (ino parentIno : Nat) (name : Name) : FileM σ Unit := do
  removeDirIndex B "btrfs unlink: dir index: %w" parentIno name
  tolerateNotFound "btrfs unlink: dir item: %w"
    (B.cowDelete ⟨parentIno, typeDirItem, hashDirName name⟩)
  step "btrfs unlink: %w" [] (removeInodeRef B ino parentIno name)
  editInode B ino "btrfs unlink: refetch inode: %w" "btrfs unlink: update inode: %w" fun s d =>
    let d := putLE 4 inodeOffNLink (leAt 4 inodeOffNLink d - 1) d
    let d := bumpInodeTransIDSequence ((B.sb s).generation + 1) d
    writeBtrfsTimespec inodeOffCTime now d
  step "btrfs unlink: shrink parent size: %w" []
    (adjustDirSize B parentIno (-dirEntrySizeDelta name))
  step "btrfs unlink: touch parent: %w" [] (touchDir B now parentIno)
  B.updateFsTreeRoot

/-- Remove the last name of an inode with the inode and its data. -/
def dropInode (now : Timespec) (ino parentIno : Nat) (name : Name) : FileM σ Unit := do
  modify (freeInodeExtents B ino)
  step "btrfs remove: extent data: %w" [] (B.cowDeletePrefix ino typeExtentData)
  tolerateNotFound "btrfs remove: xattr items: %w" (B.cowDeletePrefix ino typeXattrItem)
  tolerateNotFound "btrfs remove: inode ref: %w" (B.cowDelete ⟨ino, typeInodeRef, parentIno⟩)
  step "btrfs remove: inode item: %w" [] (B.cowDelete ⟨ino, typeInodeItem, 0⟩)
  removeDirIndex B "btrfs remove: dir index: %w" parentIno name
  tolerateNotFound "btrfs remove: dir item: %w"
    (B.cowDelete ⟨parentIno, typeDirItem, hashDirName name⟩)
  step "btrfs remove: shrink parent size: %w" []
    (adjustDirSize B parentIno (-dirEntrySizeDelta name))
  step "btrfs remove: touch parent: %w" [] (touchDir B now parentIno)
  B.updateFsTreeRoot

/-- The inode has names besides the one to be removed. -/
def hasOtherLinks (s : σ) (ino : Nat) : Bool :=
  match readInode B s ino with
  | .ok i => decide (1 < i.nlink)
  | .error _ => false

/-- Remove a name, and the inode with the last one. -/
def removeInode (now : Timespec) (ino parentIno : Nat) (name : Name) : FileM σ Unit := fun s =>
  if hasOtherLinks B s ino then unlinkInodeOnly B now ino parentIno name s
  else dropInode B now ino parentIno name s

def deleteFile (now : Timespec) (p : Path) : FileM σ Unit := do
  let (dir, name) := splitPath p
  let parentIno ← step "btrfs delete: parent %q: %w" [.names dir]
    (reading fun s => pathLookupIno B s dir)
  let (childObjID, childType) ← step "btrfs delete: %q: %w" [.names p]
    (reading fun s => lookupDirEntry B s parentIno name)
  if childType = ftDir then throw (.errorf "btrfs delete: %q is a directory" [.names p])
  else removeInode B now childObjID parentIno name

/-- Remove everything below a directory.  The recursion of the source follows the entries, which
    nothing keeps from leading back to the directory itself; `depth` bounds it here. -/
def purgeDirContents (now : Timespec) : Nat → Nat → FileM σ Unit
  | 0, _ => throw (.errorf "out of depth" [])
  | depth + 1, dirIno => do
    (readDir B (← get) dirIno).forM fun e => do
      if e.fileType = ftDir then do
        purgeDirContents now depth e.inode
        step "btrfs purgedir: dot entries in %q: %w" [.names [e.name]]
          (B.cowDeletePrefix e.inode typeDirIndex)
      removeInode B now e.inode dirIno e.name

def deleteDir (now : Timespec) (depth : Nat) (p : Path) : FileM σ Unit := do
  let (dir, name) := splitPath p
  let parentIno ← step "btrfs deletedir: parent %q: %w" [.names dir]
    (reading fun s => pathLookupIno B s dir)
  let (childObjID, childType) ← step "btrfs deletedir: %q: %w" [.names p]
    (reading fun s => lookupDirEntry B s parentIno name)
  if childType ≠ ftDir then throw (.errorf "btrfs deletedir: %q is not a directory" [.names p])
  else do
    purgeDirContents B now depth childObjID
    step "btrfs deletedir: remove dot entries: %w" [] (B.cowDeletePrefix childObjID typeDirIndex)
    removeInode B now childObjID parentIno name

/-! ## 2. Renaming -/

/-- Move an entry of a directory to a new name. -/
def moveEntry (now : Timespec) (srcObjID srcFtype oldParentIno newParentIno : Nat)
    (oldName newName : Name) : FileM σ Unit := do
  removeDirIndex B "btrfs rename: remove old dir index: %w" oldParentIno oldName
  tolerateNotFound "btrfs rename: remove old dir item: %w"
    (B.cowDelete ⟨oldParentIno, typeDirItem, hashDirName oldName⟩)
  step "btrfs rename: %w" [] (removeInodeRef B srcObjID oldParentIno oldName)
  let idxOff := nextDirIndexOffset B (← get) newParentIno
  insertDirEntry B "btrfs rename: insert new dir index: %w" "btrfs rename: insert new dir item: %w"
    [] newParentIno idxOff newName (encodeDirItem srcObjID typeInodeItem srcFtype newName)
  step "btrfs rename: %w" [] (appendInodeRef B srcObjID newParentIno idxOff newName)
  step "btrfs rename: shrink src parent size: %w" []
    (adjustDirSize B oldParentIno (-dirEntrySizeDelta oldName))
  step "btrfs rename: grow dst parent size: %w" []
    (adjustDirSize B newParentIno (dirEntrySizeDelta newName))
  step "btrfs rename: touch src parent: %w" [] (touchDir B now oldParentIno)
  if oldParentIno ≠ newParentIno then
    step "btrfs rename: touch dst parent: %w" [] (touchDir B now newParentIno)
  B.updateFsTreeRoot

def renameEntry (now : Timespec) (oldPath newPath : Path) : FileM σ Unit := do
  let (oldDir, oldName) := splitPath oldPath
  let (newDir, newName) := splitPath newPath
  let oldParentIno ← step "btrfs rename: src parent %q: %w" [.names oldDir]
    (reading fun s => pathLookupIno B s oldDir)
  let (srcObjID, srcFtype) ← step "btrfs rename: src %q: %w" [.names oldPath]
    (reading fun s => lookupDirEntry B s oldParentIno oldName)
  let newParentIno ← step "btrfs rename: dst parent %q: %w" [.names newDir]
    (reading fun s => pathLookupIno B s newDir)
  match lookupDirEntry B (← get) newParentIno newName with
  | .ok (dstObjID, dstFtype) => do
    if dstFtype = ftDir then
      throw (.errorf "btrfs rename: destination %q is a directory" [.names newPath])
    else do
      step "btrfs rename: remove dst: %w" [] (removeInode B now dstObjID newParentIno newName)
      moveEntry B now srcObjID srcFtype oldParentIno newParentIno oldName newName
  | .error _ => moveEntry B now srcObjID srcFtype oldParentIno newParentIno oldName newName

/-! ## 3. Attributes -/

/-- Edit an inode, stamp the change and commit. -/
def updateInodeMetadata (now : Timespec) (ino : Nat) (mutator : σ → Bytes → Bytes) :
    FileM σ Unit := do
  editInode B ino "read inode %d: %w" "cowUpdate inode %d: %w" fun s d =>
    writeBtrfsTimespec inodeOffCTime now
      (bumpInodeTransIDSequence ((B.sb s).generation + 1) (mutator s d))
  B.updateFsTreeRoot

/-- Look a path up and edit its inode. -/
def setAttr (now : Timespec) (format : String) (p : Path) (mutator : Bytes → Bytes) :
    FileM σ Unit := do
  let i ← step format [.names p] (reading fun s => pathLookup B s p)
  updateInodeMetadata B now i.num fun _ => mutator

def chownInode (now : Timespec) (p : Path) (uid gid : Nat) : FileM σ Unit :=
  setAttr B now "btrfs chown: %q: %w" p fun d => putLE 4 inodeOffGID gid (putLE 4 inodeOffUID uid d)

/-- The file type stays, the low twelve bits are replaced. -/
def newMode (cur perm : Nat) : Nat := cur / 0o10000 * 0o10000 ||| (perm &&& 0o7777)

def chmodInode (now : Timespec) (p : Path) (perm : Nat) : FileM σ Unit :=
  setAttr B now "btrfs chmod: %q: %w" p fun d =>
    putLE 4 inodeOffMode (newMode (leAt 4 inodeOffMode d) perm) d

def chtimesInode (now : Timespec) (p : Path) (atime mtime : Timespec) : FileM σ Unit :=
  setAttr B now "btrfs chtimes: %q: %w" p fun d =>
    writeBtrfsTimespec inodeOffMTime mtime (writeBtrfsTimespec inodeOffATime atime d)

/-! ## 4. Truncating -/

/-- The length of the file range an EXTENT_DATA item covers. -/
def extentLength (d : Bytes) : Option Nat :=
  match extentType d with
  | none => none
  | some typ =>
    if typ = extentDataInline then some (d.length - extDataHdrSize)
    else if d.length < extDataRegularSize then none
    else some (leAt 8 extDataOffNumBytes d)

/-- The item cut to its first `kept` bytes. -/
def trimExtent (kept : Nat) (d : Bytes) : Bytes :=
  if extentType d = some extentDataInline then
    putLE 8 extDataOffRamBytes kept (d.take (extDataHdrSize + kept))
  else putLE 8 extDataOffNumBytes kept (putLE 8 extDataOffRamBytes kept d)

/-- Drop or trim one item that reaches past the new end. -/
def truncateExtent (newSize : Nat) (e : Key × Bytes) : FileM σ Unit :=
  match extentLength e.2 with
  | none => pure ()
  | some len =>
    let fileOffset := e.1.offset
    if fileOffset + len ≤ newSize then pure ()
    else if newSize ≤ fileOffset then
      step "btrfs truncate: drop extent at file_offset=%d: %w" [.num fileOffset] (B.cowDelete e.1)
    else
      step "btrfs truncate: trim extent at file_offset=%d: %w" [.num fileOffset]
        (B.cowUpdate e.1 (trimExtent (newSize - fileOffset) e.2))

/-- The bytes on disk of one item, for the count in the inode. -/
def regularBytes (d : Bytes) : Nat :=
  if d.length < extDataRegularSize then 0
  else if extentType d ≠ some extentDataRegular then 0
  else if leAt 8 extDataOffDiskBytenr d = 0 then 0
  else leAt 8 extDataOffDiskNumBytes d

def extentBytesOf (s : σ) (ino : Nat) : Nat :=
  match B.collectPrefixItems s ino typeExtentData with
  | .ok items => (items.map fun e => regularBytes e.2).sum
  | .error _ => 0

/-- Drop or trim the items of an inode that reach past the new end. -/
def cutExtents (ino newSize : Nat) : FileM σ Unit := fun s =>
  match B.collectPrefixItems s ino typeExtentData with
  | .error e =>
    if e.is .errNotFound then .ok () s else .error (.wrap "btrfs truncate: scan extents: %w" [] e) s
  | .ok items => items.forM (truncateExtent B newSize) s

def truncateInode (now : Timespec) (p : Path) (newSize : Nat) : FileM σ Unit := do
  let i ← step "btrfs truncate: %q: %w" [.names p] (reading fun s => pathLookup B s p)
  if !i.isRegular then throw (.errorf "btrfs truncate: %q is not a regular file" [.names p])
  else if i.size < newSize then
    updateInodeMetadata B now i.num fun _ d => putLE 8 inodeOffSize newSize d
  else if newSize = i.size then updateInodeMetadata B now i.num fun _ d => d
  else do
    cutExtents B i.num newSize
    updateInodeMetadata B now i.num fun s d =>
      putLE 8 inodeOffNBytes (extentBytesOf B s i.num) (putLE 8 inodeOffSize newSize d)

/-! ## 5. Extended attributes -/

def setXattrInode (now : Timespec) (p : Path) (name : Name) (value : Bytes) : FileM σ Unit := do
  let i ← step "btrfs setxattr: %q: %w" [.names p] (reading fun s => pathLookup B s p)
  let xattrKey : Key := ⟨i.num, typeXattrItem, hashDirName name⟩
  let payload := encodeXattrItemPayload name value
  match B.searchTree (← get) xattrKey with
  | .ok _ =>
    step "btrfs setxattr: update %q on %q: %w" [.names [name], .names p]
      (B.cowUpdate xattrKey payload)
  | .error _ =>
    step "btrfs setxattr: insert %q on %q: %w" [.names [name], .names p]
      (B.cowInsert xattrKey payload)
  step "btrfs setxattr: refresh inode metadata: %w" [] (updateInodeMetadata B now i.num fun _ d => d)

def removeXattrInode (now : Timespec) (p : Path) (name : Name) : FileM σ Unit := do
  let i ← step "btrfs removexattr: %q: %w" [.names p] (reading fun s => pathLookup B s p)
  step "btrfs removexattr: %q on %q: %w" [.names [name], .names p]
    (B.cowDelete ⟨i.num, typeXattrItem, hashDirName name⟩)
  updateInodeMetadata B now i.num fun _ d => d

end Btrfs
