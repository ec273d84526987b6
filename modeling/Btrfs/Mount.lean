/-
  Btrfs/Mount.lean
  ================
  **Opening an image** — `OpenFromDevices` for one device, with `readSuperblock`,
  `loadChunkTree`, `resolveRootTree` and `buildSpaceManager`.

  The free list does not exist on disk.  It is built at every mount: the DATA and
  METADATA chunks are taken to be free, and then the fixed regions, the node blocks of
  the trees and the data extents are taken out one walk after the other.  The walks over
  node blocks are best effort: a walk that ends with an error has still reserved what it
  had come to, and the error is dropped.  Only the walk over data extents can fail the
  mount.
-/
import Btrfs.BTree
import Btrfs.Items

namespace Btrfs

open Lib

/-! ## 1. Superblock and chunk map -/

def superblockOffset : Nat := 0x10000

/-- The on-disk size of a superblock copy. -/
def sbfSize : Nat := 0x1000

/-- Largest legal metadata node. -/
def maxNodeSize : Nat := 65536

def readSuperblock (dev : Device) : Except Err Superblock :=
  match dev.readBlock superblockOffset sbfSize with
  | .intact (.super sb) =>
    if sb.nodeSize = 0 ∨ sb.sectorSize = 0 then
      .error (.errorf "btrfs: invalid superblock geometry nodeSize=%d sectorSize=%d"
        [.num sb.nodeSize, .num sb.sectorSize])
    else if sb.nodeSize < nodeHdrSize ∨ maxNodeSize < sb.nodeSize then
      .error (.errorf "btrfs: nodeSize %d out of range [%d,%d]"
        [.num sb.nodeSize, .num nodeHdrSize, .num maxNodeSize])
    else if sb.nodeSize % sb.sectorSize ≠ 0 then
      .error (.errorf "btrfs: nodeSize %d not a multiple of sectorSize %d"
        [.num sb.nodeSize, .num sb.sectorSize])
    else .ok sb
  | _ => .error (.errorf "btrfs: bad superblock magic 0x%016X at offset 0x%X"
      [.num 0, .num superblockOffset])

/-- The mapping is known already: same logical start, size and physical start. -/
def Superblock.hasChunkMapping (sb : Superblock) (m : ChunkMapping) : Bool :=
  sb.sysChunks.any fun e =>
    decide (e.logStart = m.logStart ∧ e.size = m.size ∧ e.physStart = m.physStart)

/-- Merge one CHUNK_ITEM into the chunk map. -/
def Superblock.addChunk (sb : Superblock) (it : LeafItem) : Superblock :=
  match chunkMappingOf sb.devID it with
  | none => sb
  | some m => if sb.hasChunkMapping m then sb else { sb with sysChunks := sb.sysChunks ++ [m] }

/-- Merge the chunk tree into the map of the superblock's sys_chunk_array.  The nodes of the chunk
    tree themselves are found through the array alone. -/
def loadChunkTree (dev : Device) (sb : Superblock) : Except Err Superblock :=
  match walkLeaves sb dev sb.chunkLogAddr with
  | (leaves, none) => .ok (leaves.flatten.foldl Superblock.addChunk sb)
  | (_, some e) => .error e

/-- The address of the FS_TREE's root node. -/
def resolveRootTree (sb : Superblock) (dev : Device) : Except Err Nat :=
  match searchTree sb dev sb.rootLogAddr ⟨fsTreeObjID, typeRootItem, 0⟩ with
  | .error e => .error (.wrap "btrfs: locate FS_TREE root item: %w" [] e)
  | .ok it =>
    if it.data.length < rootItemOffBytenr + 8 then
      .error (.errorf "btrfs: ROOT_ITEM for FS_TREE too short (%d bytes, need at least %d)"
        [.num it.data.length, .num (rootItemOffBytenr + 8)])
    else .ok (leAt 8 rootItemOffBytenr it.data)

/-! ## 2. The free list -/

def blockGroupData : Nat := 1

def blockGroupSystem : Nat := 2

def blockGroupMeta : Nat := 4

/-- A chunk for the chunk tree only, never handed out. -/
def ChunkMapping.systemOnly (m : ChunkMapping) : Bool :=
  decide (m.profile &&& blockGroupSystem ≠ 0) &&
    decide (m.profile &&& (blockGroupData ||| blockGroupMeta) = 0)

/-- The extents the free list starts from. -/
def seedExtents (sb : Superblock) : List FreeExtent :=
  (sb.sysChunks.filter fun m => !m.systemOnly).map fun m => ⟨m.physStart, m.size⟩

/-- Where the sparse sentinel and the superblock copies that are taken out begin. -/
def fixedRegions : List Nat := [0, 0x10000, 0x4000000]

/-- Take the block of a node out of the free list; an address outside every chunk is ignored. -/
def SpaceManager.reserveNode (sb : Superblock) (sm : SpaceManager) (logAddr : Nat) : SpaceManager :=
  match sb.logToPhys logAddr with
  | .ok phys => sm.remove phys sb.nodeSize
  | .error _ => sm

/-- Take every node of a tree out of the free list, as far as the walk gets. -/
def reserveTreeNodes (sb : Superblock) (dev : Device) (sm : SpaceManager) (root : Nat) :
    SpaceManager :=
  (walkNodeAddrs sb dev root).1.foldl (SpaceManager.reserveNode sb) sm

/-- Do so for every tree a ROOT_ITEM of the root tree describes. -/
def reserveRootTreeReferencedTrees (sb : Superblock) (dev : Device) (sm : SpaceManager) :
    SpaceManager :=
  ((walkLeaves sb dev sb.rootLogAddr).1.flatten.filterMap rootBytenr).foldl
    (reserveTreeNodes sb dev) sm

/-- Take a data extent out of the free list. -/
def SpaceManager.reserveExtent (sm : SpaceManager) (s : Span) : SpaceManager :=
  sm.remove s.start s.size

/-- Take the regular data extents of one FS tree out of the free list. -/
def reserveDataExtents (sb : Superblock) (dev : Device) (sm : SpaceManager) (fsTreeRoot : Nat) :
    Except Err SpaceManager :=
  match walkLeaves sb dev fsTreeRoot with
  | (leaves, none) =>
    .ok ((leaves.flatten.filterMap (dataExtent sb)).foldl SpaceManager.reserveExtent sm)
  | (_, some e) => .error e

def buildSpaceManager (sb : Superblock) (dev : Device) (fsTreeRoot : Nat) :
    Except Err SpaceManager :=
  let sm : SpaceManager := ⟨seedExtents sb, sb.nodeSize⟩
  let sm := fixedRegions.foldl (fun sm phys => sm.remove phys sb.nodeSize) sm
  let sm := [sb.rootLogAddr, sb.chunkLogAddr, fsTreeRoot].foldl (reserveTreeNodes sb dev) sm
  let sm := reserveRootTreeReferencedTrees sb dev sm
  match reserveDataExtents sb dev sm fsTreeRoot with
  | .ok sm => .ok sm
  | .error e => .error (.wrap "btrfs alloc: reserve data extents: %w" [] e)

/-! ## 3. The open filesystem -/

/-- An open filesystem: superblock with chunk map, root of the FS tree, device and free list. -/
structure Fs where
  sb : Superblock
  fsTreeRoot : Nat
  vol : Vol
  deriving DecidableEq, Repr

/-- `OpenFromDevices` on a single device. -/
def openFromDevices (dev : Device) : Except Err Fs :=
  match readSuperblock dev with
  | .error e => .error e
  | .ok sb =>
    match loadChunkTree dev sb with
    | .error e => .error (.wrap "btrfs: load chunk tree: %w" [] e)
    | .ok sb =>
      match resolveRootTree sb dev with
      | .error e => .error (.wrap "btrfs: resolve FS_TREE: %w" [] e)
      | .ok fsRoot =>
        match buildSpaceManager sb dev fsRoot with
        | .error e => .error (.wrap "btrfs: build space manager: %w" [] e)
        | .ok sm => .ok ⟨sb, fsRoot, ⟨dev, sm⟩⟩

end Btrfs
