/-
  Btrfs/MapFs.lean
  ================
  **The FS tree as a sorted map** — the backend the file operations are specified over.

  The items are sorted records, and a tree operation is the operation on records it
  stands for.  What a B-tree does beside that is kept: it takes node blocks from the free
  list and returns them, writes nodes into fresh blocks or over old ones, and fails when
  no block is left.  The operations of a run do so as a script says, and a statement for
  every script holds for whatever the trees below do.  Node blocks and file data share
  one free list, so that the traffic decides where data can go.
-/
import Btrfs.FileEdits
import Btrfs.Mount
import Btrfs.Lib.Records

namespace Btrfs

open Lib

/-! ## 1. Node traffic -/

/-- One thing a tree operation does with node blocks. -/
inductive NodeEvent
  | alloc (n : Node)
  | free (i : Nat)
  | rewrite (i : Nat) (n : Node)
  deriving DecidableEq, Repr

/-- A filesystem whose FS tree is a sorted map.  `nodes` are the node blocks in use by all trees,
    `script` is what the operations to come do with blocks, and `starved` records that a block
    was asked for in vain. -/
structure MapFs where
  sb : Superblock
  records : Records Key Bytes
  nodes : List Nat
  vol : Vol
  script : List (List NodeEvent)
  starved : Bool
  deriving DecidableEq

def NodeEvent.run : NodeEvent → FileM MapFs Unit
  | .alloc n => fun s =>
    match s.vol.sm.allocNodeBlock with
    | .error e => .error e { s with starved := true }
    | .ok (phys, sm) =>
      .ok () { s with nodes := phys :: s.nodes
                      vol := ⟨writeNodeAtPhys s.sb s.vol.dev phys n, sm⟩ }
  | .free i => fun s =>
    match s.nodes[i]? with
    | none => .ok () s
    | some phys =>
      .ok () { s with nodes := s.nodes.eraseIdx i
                      vol := { s.vol with sm := s.vol.sm.freeRange phys s.sb.nodeSize } }
  | .rewrite i n => fun s =>
    match s.nodes[i]? with
    | none => .ok () s
    | some phys => .ok () { s with vol := { s.vol with dev := writeNodeAtPhys s.sb s.vol.dev phys n } }

/-- The traffic of one operation. -/
def traffic : FileM MapFs Unit := fun s =>
  (s.script.head?.getD []).forM NodeEvent.run { s with script := s.script.tail }

/-! ## 2. The backend -/

/-- Change the records, with the traffic that goes with it. -/
def mapOp (f : Superblock → Records Key Bytes → Except Err (Records Key Bytes)) :
    FileM MapFs Unit := fun s =>
  match f s.sb s.records with
  | .error e => .error e s
  | .ok r =>
    match traffic s with
    | .error e s' => .error e s'
    | .ok _ s' => .ok () { s' with records := r }

/-- The item fits in a leaf of its own. -/
def fitsLeaf (sb : Superblock) (data : Bytes) : Bool :=
  decide (nodeHdrSize + itemSize + data.length ≤ sb.nodeSize)

def errKey (format : String) (k : Key) (e : Err) : Err :=
  .wrap format [.num k.objID, .num k.typ, .num k.offset] e

def mapInsert (k : Key) (data : Bytes) : FileM MapFs Unit :=
  mapOp fun sb r =>
    if fitsLeaf sb data then .ok (r.insert k data) else .error (.sentinel .errLeafFull)

def mapUpdate (k : Key) (data : Bytes) : FileM MapFs Unit :=
  mapOp fun sb r =>
    if (r.find? k).isNone then
      .error (.errorf "btrfs cow update: key (%d 0x%02X %d) not found"
        [.num k.objID, .num k.typ, .num k.offset])
    else if fitsLeaf sb data then .ok (r.update k data)
    else .error (.errorf "btrfs: not enough space to expand item (%d vs %d free)" [])

def mapDelete (k : Key) : FileM MapFs Unit :=
  mapOp fun _ r =>
    if (r.find? k).isNone then
      .error (errKey "btrfs cow delete: key (%d 0x%02X %d): %w" k (.sentinel .errNotFound))
    else .ok (r.erase k)

/-- Objectid and type of a key are the given ones. -/
def inPrefix (objID typ : Nat) (k : Key) : Bool := decide (k.objID = objID ∧ k.typ = typ)

def mapDeletePrefix (objID typ : Nat) : FileM MapFs Unit :=
  mapOp fun _ r => .ok (r.removeAll (inPrefix objID typ))

def mapSearch (s : MapFs) (k : Key) : Except Err Bytes :=
  match s.records.find? k with
  | some d => .ok d
  | none => .error (errKey "btrfs: key (%d 0x%02X %d): %w" k (.sentinel .errNotFound))

def mapCollect (s : MapFs) (objID typ : Nat) : Except Err (List (Key × Bytes)) :=
  match s.records.keep (inPrefix objID typ) with
  | [] => .error (.wrap "btrfs: no items for objID=%d type=0x%02X: %w" [.num objID, .num typ]
      (.sentinel .errNotFound))
  | e :: l => .ok (e :: l)

/-- Commit: traffic of the root tree and the extent tree, then the superblock. -/
def mapCommit : FileM MapFs Unit := fun s =>
  match traffic s with
  | .error e s' => .error e s'
  | .ok _ s' =>
    let sb := { s'.sb with generation := s'.sb.generation + 1 }
    .ok () { s' with sb := sb
                     vol := { s'.vol with dev := ⟨superblockOffset, sbfSize, .super sb⟩ :: s'.vol.dev } }

def mapBackend : Backend MapFs where
  sb := MapFs.sb
  vol := MapFs.vol
  setVol v s := { s with vol := v }
  searchTree := mapSearch
  collectPrefixItems := mapCollect
  walkItems s := s.records.list
  cowInsert := mapInsert
  cowUpdate := mapUpdate
  cowDelete := mapDelete
  cowDeletePrefix := mapDeletePrefix
  updateFsTreeRoot := mapCommit

end Btrfs
