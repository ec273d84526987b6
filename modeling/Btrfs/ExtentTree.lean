/-
  Btrfs/ExtentTree.lean
  =====================
  **The multi-level extent tree** — `extent_multilevel.go`.

  The extent tree lists the live blocks, its own included, so its size depends on
  itself.  `buildMultiLevelExtentTree` guesses a number of blocks, allocates them,
  lays the records out, and tries again with the number the layout really needs until
  the two agree; then it writes the leaves and the index levels above them and points
  the ROOT_ITEM at the new root.

  A Go map is the list of its entries.  The index ranges `partitionLeaves` returns
  stand for the records they select, so here it returns those.  Of the header template
  only the fields a node of the model has are left, and both are overwritten.
-/
import Btrfs.Lib.Packing
import Btrfs.Mount

namespace Btrfs

open Lib

/-! ## 1. Records -/

def extentTreeObjID : Nat := 2

def typeMetadataItem : Nat := 0xA9

def typeBlockGroupItem : Nat := 0xC0

/-- The inline reference of a METADATA_ITEM. -/
def typeTreeBlockRef : Nat := 0xB0

def extentFlagTreeBlock : Nat := 2

def firstChunkTreeObjID : Nat := 256

/-- One extent-tree record: its key and its payload. -/
abbrev ItemRec := Key × Bytes

/-- refs, generation and flags of the block, and an inline reference to the tree that owns it. -/
def buildMetadataItemBytes (owner : Nat) : Bytes :=
  leBytes 8 1 ++ leBytes 8 1 ++ leBytes 8 extentFlagTreeBlock ++ leBytes 1 typeTreeBlockRef ++
    leBytes 8 owner

/-- used, chunk_objectid and flags of a block group. -/
def buildBlockGroupItemBytes (used flags : Nat) : Bytes :=
  leBytes 8 used ++ leBytes 8 firstChunkTreeObjID ++ leBytes 8 flags

/-- The bytes in use of each chunk, by its logical start; a chunk without an entry has none. -/
abbrev UsedMap := List (Nat × Nat)

namespace UsedMap

def get (m : UsedMap) (cs : Nat) : Nat := (m.lookup cs).getD 0

/-- `m[cs] += n`. -/
def add (cs n : Nat) : UsedMap → UsedMap
  | [] => [(cs, n)]
  | e :: m => if e.1 = cs then (cs, e.2 + n) :: m else e :: add cs n m

def total (m : UsedMap) : Nat := (m.map Prod.snd).sum

end UsedMap

/-- What the builder is given: the records of everything but the extent tree and the block groups,
    the bytes those use, the size and flags of each block group, the chunk of a logical address,
    and the old extent tree's root with whether its blocks may be freed. -/
structure MultiLevelExtentInput where
  baseRecs : List ItemRec
  baseBGUsed : UsedMap
  bgLenFlags : List (Nat × Nat × Nat)
  chunkOf : Nat → Option Nat
  oldExtRoot : Nat
  oldExtSafe : Bool

/-- The block group of each chunk, by its logical start: its size and flags.  A later chunk replaces
    an earlier one with the same start. -/
def Superblock.bgLenFlags (sb : Superblock) : List (Nat × Nat × Nat) :=
  sb.sysChunks.foldl
    (fun m c => m.filter (fun e => e.1 ≠ c.logStart) ++ [(c.logStart, c.size, c.profile)]) []

/-- The logical start of the first chunk that holds the address. -/
def Superblock.chunkOf (sb : Superblock) (logAddr : Nat) : Option Nat :=
  (sb.sysChunks.find? (·.holdsLog logAddr)).map ChunkMapping.logStart

/-! ## 2. Shape -/

/-- The usable item area of a leaf. -/
def leafCapacity (sb : Superblock) : Nat := sb.nodeSize - nodeHdrSize

/-- The most key-ptrs an interior node holds. -/
def internalCapacity (sb : Superblock) : Nat := (sb.nodeSize - nodeHdrSize) / keyPtrSize

/-- What a record takes of a leaf: its descriptor and its payload. -/
def itemNeed (r : ItemRec) : Nat := itemSize + r.2.length

/-- Pack key-sorted records into leaves, as many to a leaf as fit. -/
def partitionLeaves (recs : List ItemRec) (capBytes : Nat) : List (List ItemRec) :=
  pack capBytes itemNeed recs

/-- The node counts of the interior levels above `nLeaves` leaves, bottom up, and their total. -/
def interiorShape (nLeaves icap : Nat) : List Nat × Nat :=
  (levelSizes icap nLeaves, (levelSizes icap nLeaves).sum)

/-- Scan down from `l` for the leaf count that makes `blockCount` blocks in all. -/
def leavesFor (icap blockCount : Nat) : Nat → Nat
  | 0 => 0
  | l + 1 =>
    if l + 1 + (interiorShape (l + 1) icap).2 = blockCount ∨ l = 0 then l + 1
    else leavesFor icap blockCount l

/-- One candidate tree: its blocks, level by level, its records, the records of each leaf and the
    bytes in use of each chunk. -/
structure ExtentLayout where
  leafLogs : List Nat
  interiorLogs : List (List Nat)
  levels : List Nat
  recs : List ItemRec
  ranges : List (List ItemRec)
  bgUsed : UsedMap
  deriving DecidableEq, Repr

/-- The blocks with their levels. -/
def ExtentLayout.allBlocks (lay : ExtentLayout) : List (Nat × Nat) :=
  lay.leafLogs.map (·, 0) ++
    (lay.interiorLogs.zipIdx.map fun l => l.1.map (·, l.2 + 1)).flatten

/-- Every block allocated for the candidate, in the order of allocation. -/
def ExtentLayout.allocated (lay : ExtentLayout) : List Nat :=
  lay.leafLogs ++ lay.interiorLogs.flatten

/-! ## 3. Sizing -/

abbrev SpaceM := EStateM Err SpaceManager

/-- Allocate `n` blocks and name them by their logical addresses; `wrap` words the failure of the
    `i`-th. -/
def allocLogs (sb : Superblock) (wrap : Nat → Err → Err) : Nat → Nat → SpaceM (List Nat)
  | _, 0 => pure []
  | i, n + 1 => fun sm =>
    match sm.allocNodeBlock with
    | .error e => .error (wrap i e) sm
    | .ok (phys, sm) =>
      (do return sb.physToLog phys :: (← allocLogs sb wrap (i + 1) n)) sm

def allocLevels (sb : Superblock) : Nat → List Nat → SpaceM (List (List Nat))
  | _, [] => pure []
  | lvl, n :: levels => do
    let logs ← allocLogs sb
      (fun i => .wrap "btrfs: alloc extent interior L%d #%d: %w" [.num (lvl + 1), .num i]) 0 n
    return logs :: (← allocLevels sb (lvl + 1) levels)

/-- The order `sort.Slice` puts the records in. -/
def sortRecs (recs : List ItemRec) : List ItemRec := recs.insertionSort fun a b => a.1 ≤ b.1

/-- The record of one of the tree's own blocks. -/
def ownRec (b : Nat × Nat) : ItemRec :=
  (⟨b.1, typeMetadataItem, b.2⟩, buildMetadataItemBytes extentTreeObjID)

def blockGroupRec (bgUsed : UsedMap) (g : Nat × Nat × Nat) : ItemRec :=
  (⟨g.1, typeBlockGroupItem, g.2.1⟩, buildBlockGroupItemBytes (bgUsed.get g.1) g.2.2)

/-- The bytes in use once the tree's own blocks are counted. -/
def usedWith (sb : Superblock) (inp : MultiLevelExtentInput) (blocks : List (Nat × Nat)) : UsedMap :=
  blocks.foldl
    (fun m b => match inp.chunkOf b.1 with
      | some cs => m.add cs sb.nodeSize
      | none => m) inp.baseBGUsed

/-- Allocate `blockCount` blocks, apportioned into leaves and interior nodes, and lay the records
    out as they are with those blocks in use. -/
def tryExtentLayout (sb : Superblock) (inp : MultiLevelExtentInput) (blockCount : Nat) :
    SpaceM ExtentLayout := do
  let icap := internalCapacity sb
  let nLeaves := leavesFor icap blockCount blockCount
  let levels := (interiorShape nLeaves icap).1
  let leafLogs ← allocLogs sb (fun i => .wrap "btrfs: alloc extent leaf %d: %w" [.num i]) 0 nLeaves
  let interiorLogs ← allocLevels sb 0 levels
  let allBlocks := (ExtentLayout.mk leafLogs interiorLogs levels [] [] []).allBlocks
  let bgUsed := usedWith sb inp allBlocks
  let recs := sortRecs
    (inp.baseRecs ++ allBlocks.map ownRec ++ inp.bgLenFlags.map (blockGroupRec bgUsed))
  return ⟨leafLogs, interiorLogs, levels, recs, partitionLeaves recs (leafCapacity sb), bgUsed⟩

/-- Return every block of a candidate. -/
def freeLayout (sb : Superblock) (sm : SpaceManager) (lay : ExtentLayout) : SpaceManager :=
  lay.allocated.foldl (fun sm l => sm.freeRange (sb.physFromLog l) sb.nodeSize) sm

/-- The block count the leaf partition of a candidate asks for. -/
def ExtentLayout.wanted (sb : Superblock) (lay : ExtentLayout) : Nat :=
  lay.ranges.length + (interiorShape lay.ranges.length (internalCapacity sb)).2

/-- The loop on the block count; `iter` turns are left. -/
def sizeExtentTree (sb : Superblock) (inp : MultiLevelExtentInput) : Nat → Nat → SpaceM ExtentLayout
  | 0, _ => throw (.errorf "btrfs: multi-level extent tree sizing did not converge" [])
  | iter + 1, blockCount => do
    let lay ← tryExtentLayout sb inp blockCount
    if lay.ranges.length = lay.leafLogs.length then return lay
    else
      modify fun sm => freeLayout sb sm lay
      sizeExtentTree sb inp iter (lay.wanted sb)

/-! ## 4. Writing the tree -/

/-- The items of a leaf: its records, inserted one by one into an empty leaf. -/
def extentLeafItems (sb : Superblock) (recs : List ItemRec) : Except Err (List LeafItem) :=
  recs.foldlM (fun items r => leafInsertItem sb.nodeSize items r.1 r.2) []

def writeExtentLeaves (sb : Superblock) : Nat → List (List ItemRec × Nat) → VolM Unit
  | _, [] => pure ()
  | i, (recs, log) :: leaves => fun v =>
    match extentLeafItems sb recs with
    | .error e => .error (.wrap "btrfs: insert into extent leaf %d: %w" [.num i] e) v
    | .ok items =>
      let leaf := Node.leaf ⟨log, sb.generation + 1⟩ items
      writeExtentLeaves sb (i + 1) leaves
        { v with dev := writeNodeAtPhys sb v.dev (sb.physFromLog log) leaf }

/-- A child as its parent lists it: its first key and its address. -/
abbrev ChildRef := Key × Nat

/-- Write the nodes of the level `lvl + 1` over their shares of the children. -/
def writeExtentNodes (sb : Superblock) (lvl : Nat) : List (List ChildRef × Nat) → VolM (List ChildRef)
  | [] => pure []
  | (kids, log) :: nodes => fun v =>
    let ptrs := kids.map fun c => (⟨c.1, c.2, sb.generation + 1⟩ : KeyPtr)
    let node := Node.internal ⟨log, sb.generation + 1⟩ lvl ptrs
    (do return ((kids.head?.map Prod.fst).getD ⟨0, 0, 0⟩, log) :: (← writeExtentNodes sb lvl nodes))
      { v with dev := writeNodeAtPhys sb v.dev (sb.physFromLog log) node }

/-- Write the interior levels bottom-up, the children spread evenly over the nodes of a level. -/
def writeExtentLevels (sb : Superblock) :
    Nat → List Nat → List (List Nat) → List ChildRef → VolM Unit
  | _, [], _, _ => pure ()
  | lvl, nNodes :: levels, interiorLogs, children => do
    let nodeLogs := interiorLogs.headD []
    if nodeLogs.length ≠ nNodes then
      throw (.errorf "btrfs: extent interior L%d node-log mismatch (%d vs %d)"
        [.num (lvl + 1), .num nodeLogs.length, .num nNodes])
    else
      let parents ← writeExtentNodes sb lvl ((shareOut nNodes children).zip nodeLogs)
      writeExtentLevels sb (lvl + 1) levels interiorLogs.tail parents

def writeMultiLevelTree (sb : Superblock) (lay : ExtentLayout) : VolM Unit := do
  if lay.ranges.length ≠ lay.leafLogs.length then
    throw (.errorf "btrfs: extent tree leaf/range mismatch (%d vs %d)"
      [.num lay.ranges.length, .num lay.leafLogs.length])
  else
    writeExtentLeaves sb 0 (lay.ranges.zip lay.leafLogs)
    writeExtentLevels sb 0 lay.levels lay.interiorLogs ((lay.ranges.map firstKey).zip lay.leafLogs)

/-- The sole node of the top interior level, or the lone leaf. -/
def interiorRootLog (lay : ExtentLayout) : Nat :=
  match lay.interiorLogs.getLast? with
  | none => lay.leafLogs.headD 0
  | some top => top.headD 0

/-! ## 5. The ROOT_ITEM and the superblock -/

def rootItemOffGeneration : Nat := 0xA0

def rootItemOffLevel : Nat := 0xEE

def rootItemOffGenerationV2 : Nat := 0xEF

/-- The ROOT_TREE leaf that holds the ROOT_ITEM of a tree. -/
def rootItemLeafLogAddr (sb : Superblock) (dev : Device) (objID : Nat) : Except Err Nat :=
  match readNode sb dev sb.rootLogAddr with
  | .error e => .error (.wrap "read root tree root: %w" [] e)
  | .ok (.leaf _ _) => .ok sb.rootLogAddr
  | .ok (.internal _ _ _) =>
    match tracePath sb dev sb.rootLogAddr ⟨objID, typeRootItem, 0⟩ with
    | .error e => .error (.wrap "trace root item %d: %w" [.num objID] e)
    | .ok t => .ok t.leafLog

/-- The payload of a ROOT_ITEM with a new root address, generation and level. -/
def repointedRootItem (sb : Superblock) (newRoot level : Nat) (d : Bytes) : Bytes :=
  let d := putLE 8 rootItemOffBytenr newRoot d
  let d := putLE 8 rootItemOffGeneration (sb.generation + 1) d
  let d := putLE 1 rootItemOffLevel level d
  if rootItemOffGenerationV2 + 8 < d.length then
    putLE 8 rootItemOffGenerationV2 (sb.generation + 1) d
  else d

/-- Rewrite the EXTENT_TREE's ROOT_ITEM in place.  `physAddr` is what reads take, the logical
    address, which the device pool translates; a write is not translated, so the leaf goes to the
    device offset that equals its logical address. -/
def repointExtentRoot (sb : Superblock) (newRoot level : Nat) : VolM Unit := fun v =>
  match rootItemLeafLogAddr sb v.dev extentTreeObjID with
  | .error e => .error e v
  | .ok leafLog =>
    match readNode sb v.dev leafLog with
    | .error e => .error (.wrap "read root tree leaf: %w" [] e) v
    | .ok (.internal _ _ _) =>
      .error (.errorf "btrfs: EXTENT_TREE ROOT_ITEM not found" []) v
    | .ok (.leaf hdr items) =>
      match findItemIdx items extentTreeObjID typeRootItem 0 with
      | none => .error (.errorf "btrfs: EXTENT_TREE ROOT_ITEM not found" []) v
      | some idx =>
        match items[idx]? with
        | none => .error (.errorf "btrfs: EXTENT_TREE ROOT_ITEM not found" []) v
        | some it =>
          if it.data.length ≤ rootItemOffLevel then
            .error (.errorf "btrfs: EXTENT_TREE ROOT_ITEM too short" []) v
          else
            let it := { it with data := repointedRootItem sb newRoot level it.data }
            .ok () { v with dev := writeNodeAtPhys sb v.dev leafLog (.leaf hdr (items.set idx it)) }

/-- Rewrite the superblock's bytes_used.  The read goes through the device pool, the write does
    not. -/
def updateSuperBytesUsed (sb : Superblock) (used : Nat) : VolM Unit := fun v =>
  match v.dev.readBlock (sb.physFromLog superblockOffset) sbfSize with
  | .intact (.super s) =>
    .ok () { v with dev := ⟨superblockOffset, sbfSize, .super { s with bytesUsed := used }⟩ :: v.dev }
  | _ => .error (.errorf "read superblock for bytes_used: %w" []) v

/-! ## 6. The builder -/

/-- Return every block of the old tree.  The walk hands out each address once. -/
def releaseTree (sb : Superblock) (root : Nat) (v : Vol) : Vol :=
  (walkNodeAddrs sb v.dev root).1.foldl (freeNode sb) v

/-- Run a computation on the space manager of a volume. -/
def onSpace {α : Type} (x : SpaceM α) : VolM α := fun v =>
  match x v.sm with
  | .ok a sm => .ok a { v with sm := sm }
  | .error e sm => .error e { v with sm := sm }

/-- Build the tree, write it and point its ROOT_ITEM at it. -/
def buildMultiLevelExtentTree (sb : Superblock) (inp : MultiLevelExtentInput) : VolM Unit := fun v =>
  if internalCapacity sb < 2 then .error (.errorf "btrfs: node too small for interior node" []) v
  else
    (do
      let final ← onSpace (sizeExtentTree sb inp 64 1)
      writeMultiLevelTree sb final
      repointExtentRoot sb (interiorRootLog final) final.levels.length
      updateSuperBytesUsed sb final.bgUsed.total)
      (if inp.oldExtSafe then releaseTree sb inp.oldExtRoot v else v)

end Btrfs
