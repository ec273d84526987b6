/-
  Btrfs/Device.lean
  =================
  **The device and the volume state** — what a mutation reads and writes.

  A device is the log of the writes it has received.  A block never written is all
  zeros and decodes to an empty leaf.  A block whose newest write is a node decodes to
  that node; one whose bytes come from a file's data, or from two writes that overlap
  it, decodes to nothing the model could name, and reading it fails.  In the same way
  file data is read byte by byte, and reading a byte of a node as data fails.  Device
  writes themselves succeed.

  The tree operations thread a `Vol`: the device and the space manager.  They take the
  superblock as a fixed argument, because none of them changes it.
-/
import Btrfs.Lib.WriteLog
import Btrfs.Lib.Run
import Btrfs.Alloc
import Btrfs.Node

namespace Btrfs

open Lib

/-- What one device write carries. -/
inductive Payload
  | node (n : Node)
  | data (bytes : Bytes)
  | super (s : Superblock)
  deriving DecidableEq, Repr

abbrev Device := WriteLog Payload

/-- The mutable part of an open filesystem that the tree operations touch. -/
structure Vol where
  dev : Device
  sm : SpaceManager
  deriving DecidableEq, Repr

abbrev VolM := EStateM Err Vol

/-- Read and decode the node at a logical address. -/
def readNode (sb : Superblock) (dev : Device) (logAddr : Nat) : Except Err Node :=
  match sb.physAddr logAddr with
  | .error e => .error e
  | .ok phys =>
    match dev.readBlock phys sb.nodeSize with
    | .blank => .ok (.leaf ⟨0, 0⟩ [])
    | .intact (.node n) => .ok n
    | _ => .error (.errorf "btrfs: read node at phys 0x%X: %w" [.num phys])

/-- Write a node block at a physical offset. -/
def writeNodeAtPhys (sb : Superblock) (dev : Device) (phys : Nat) (n : Node) : Device :=
  ⟨phys, sb.nodeSize, .node n⟩ :: dev

/-- The file data a write carries.  Nodes and superblocks are not encoded. -/
def Payload.bytes? : Payload → Option Bytes
  | .data b => some b
  | _ => none

/-- Read file data. -/
def readAt (dev : Device) (off n : Nat) : Except Err Bytes :=
  match dev.readCells Payload.bytes? off n with
  | some b => .ok b
  | none => .error (.errorf "read at 0x%X: not file data" [.num off])

/-- Write file data. -/
def writeAt (dev : Device) (off : Nat) (data : Bytes) : Device := ⟨off, data.length, .data data⟩ :: dev

/-- Allocate a block, stamp the node's header with its new address and generation, and write
    it there; the result is the new logical address. -/
def writeCowNode (sb : Superblock) (n : Node) : VolM Nat := fun v =>
  match v.sm.allocNodeBlock with
  | .error e => .error (.wrap "alloc node block: %w" [] e) v
  | .ok (newPhys, sm) =>
    let newLog := sb.physToLog newPhys
    let n := n.stamp ⟨newLog, sb.generation + 1⟩
    .ok newLog ⟨writeNodeAtPhys sb v.dev (sb.physFromLog newLog) n, sm⟩

/-- Return the block of a node to the free list. -/
def freeNode (sb : Superblock) (v : Vol) (logAddr : Nat) : Vol :=
  { v with sm := v.sm.freeRange (sb.physFromLog logAddr) sb.nodeSize }

/-! ### Blocks and geometry -/

/-- The bytes of the block at a logical address. -/
def blk (sb : Superblock) (logAddr : Nat) : Set Nat :=
  (⟨sb.physFromLog logAddr, sb.nodeSize⟩ : Span).bytes

/-- The bytes the allocator may hand out: those of some chunk whose logical address is not the
    reserved 0. -/
def usable (sb : Superblock) : Set Nat :=
  {p | (∃ m ∈ sb.sysChunks, m.holdsPhys p = true) ∧ sb.physToLog p ≠ 0}

/-- What the tree operations rely on: nodes have room for a header, no two chunks claim the
    same logical address, and the free list is a list of disjoint ranges of usable bytes. -/
structure VolOk (sb : Superblock) (v : Vol) : Prop where
  nodeSize_ge : nodeHdrSize ≤ sb.nodeSize
  sm_nodeSize : v.sm.nodeSize = sb.nodeSize
  chunks_apart : sb.sysChunks.Pairwise fun m m' =>
    Disjoint (⟨m.logStart, m.size⟩ : Span).bytes (⟨m'.logStart, m'.size⟩ : Span).bytes
  noOverlap : v.sm.NoOverlap
  free_usable : v.sm.free ⊆ usable sb

variable {sb : Superblock} {v v' : Vol}

theorem physAddr_eq_ok {a p : Nat} (h : sb.physAddr a = .ok p) : sb.physFromLog a = p := by
  simp only [Superblock.physAddr, Superblock.logToPhys, Superblock.lookupChunk] at h
  rw [Superblock.physFromLog]
  cases hf : sb.sysChunks.find? (·.holdsLog a) with
  | none => rw [hf] at h; cases h
  | some m =>
    rw [hf] at h
    simpa using h

/-- A mapped physical offset survives the trip to its logical address and back. -/
theorem VolOk.physAddr_physToLog (hok : VolOk sb v) {p : Nat} (hp : p ∈ v.sm.free) :
    sb.physAddr (sb.physToLog p) = .ok p := by
  obtain ⟨⟨m₀, hm₀, hh₀⟩, -⟩ := hok.free_usable hp
  -- the chunk the allocator's inversion picks
  have hsome : (sb.sysChunks.find? (·.holdsPhys p)).isSome := by
    rw [List.find?_isSome]
    exact ⟨m₀, hm₀, hh₀⟩
  obtain ⟨m, hm⟩ := Option.isSome_iff_exists.mp hsome
  have hmem := List.mem_of_find?_eq_some hm
  have hphys : m.physStart ≤ p ∧ p < m.physStart + m.size := by
    have := List.find?_some hm
    simpa [ChunkMapping.holdsPhys] using this
  have hlog : sb.physToLog p = m.logStart + (p - m.physStart) := by
    rw [Superblock.physToLog, hm]
  have hin : m.holdsLog (sb.physToLog p) = true := by
    rw [hlog]
    simp only [ChunkMapping.holdsLog, decide_eq_true_eq]
    omega
  -- the chunk a reader picks holds the same logical address, so it is the same chunk
  have hsome' : (sb.sysChunks.find? (·.holdsLog (sb.physToLog p))).isSome := by
    rw [List.find?_isSome]
    exact ⟨m, hmem, hin⟩
  obtain ⟨m', hm'⟩ := Option.isSome_iff_exists.mp hsome'
  have hin' := List.find?_some hm'
  have heq : m' = m := by
    by_contra hne
    have hsymm : Std.Symm fun m m' : ChunkMapping =>
        Disjoint (⟨m.logStart, m.size⟩ : Span).bytes (⟨m'.logStart, m'.size⟩ : Span).bytes :=
      ⟨fun _ _ h => h.symm⟩
    have hdis := hok.chunks_apart.forall (List.mem_of_find?_eq_some hm') hmem hne
    simp only [ChunkMapping.holdsLog, decide_eq_true_eq] at hin hin'
    exact Set.disjoint_left.mp hdis hin' hin
  subst heq
  simp only [Superblock.physAddr, Superblock.logToPhys, Superblock.lookupChunk, hm']
  rw [hlog]
  congr 1
  omega

theorem VolOk.physFromLog_physToLog (hok : VolOk sb v) {p : Nat} (hp : p ∈ v.sm.free) :
    sb.physFromLog (sb.physToLog p) = p :=
  physAddr_eq_ok (hok.physAddr_physToLog hp)

/-- A write that does not touch the block of a node does not change it. -/
theorem readNode_cons_of_disjoint {w : Write Payload} {dev : Device} {a : Nat}
    (h : Disjoint w.span.bytes (blk sb a)) : readNode sb (w :: dev) a = readNode sb dev a := by
  rw [readNode, readNode]
  cases hpa : sb.physAddr a with
  | error e => rfl
  | ok q =>
    rw [blk, physAddr_eq_ok hpa] at h
    simp only [WriteLog.readBlock_cons_of_disjoint dev h]

/-- A node written at the place of a mapped address is read back from there. -/
theorem readNode_writeNodeAtPhys {dev : Device} {a p : Nat} (hns : 0 < sb.nodeSize)
    (ha : sb.physAddr a = .ok p) (n : Node) :
    readNode sb (writeNodeAtPhys sb dev p n) a = .ok n := by
  rw [readNode, ha]
  simp only [writeNodeAtPhys, WriteLog.readBlock_cons_self hns]

/-- Everything a successful `writeCowNode` does. -/
structure Wrote (sb : Superblock) (n : Node) (v : Vol) (a : Nat) (v' : Vol) : Prop where
  ok : VolOk sb v'
  addr_ne : a ≠ 0
  was_free : blk sb a ⊆ v.sm.free
  free_eq : v'.sm.free = v.sm.free \ blk sb a
  reads : readNode sb v'.dev a = .ok (n.stamp ⟨a, sb.generation + 1⟩)
  frame : ∀ b, Disjoint (blk sb b) (blk sb a) → readNode sb v'.dev b = readNode sb v.dev b

theorem writeCowNode_ok {n : Node} {a : Nat} (hok : VolOk sb v)
    (h : writeCowNode sb n v = .ok a v') : Wrote sb n v a v' := by
  have hns : 0 < sb.nodeSize := lt_of_lt_of_le (by decide) hok.nodeSize_ge
  rw [writeCowNode] at h
  cases hal : v.sm.allocNodeBlock with
  | error e => rw [hal] at h; cases h
  | ok r =>
    obtain ⟨p, sm⟩ := r
    rw [hal] at h
    simp only [EStateM.Result.ok.injEq] at h
    obtain ⟨rfl, rfl⟩ := h
    have ha := SpaceManager.allocNodeBlock_ok hok.noOverlap hal
    rw [hok.sm_nodeSize] at ha
    have hp : p ∈ v.sm.free := ha.was_free ⟨le_refl p, by simp only; omega⟩
    have hback := hok.physFromLog_physToLog hp
    have hblk : blk sb (sb.physToLog p) = (⟨p, sb.nodeSize⟩ : Span).bytes := by
      rw [blk, hback]
    have hsub : sm.free ⊆ v.sm.free := by
      rw [ha.free_eq]; exact Set.sdiff_subset
    refine ⟨⟨hok.nodeSize_ge, ?_, hok.chunks_apart, ha.noOverlap, ?_⟩, ?_, ?_, ?_, ?_, ?_⟩
    · rw [ha.nodeSize_eq, hok.sm_nodeSize]
    · exact hsub.trans hok.free_usable
    · exact (hok.free_usable hp).2
    · rw [hblk]; exact ha.was_free
    · rw [hblk]; exact ha.free_eq
    · rw [hback]
      exact readNode_writeNodeAtPhys hns (hok.physAddr_physToLog hp) _
    · intro b hb
      rw [hblk] at hb
      rw [hback]
      exact readNode_cons_of_disjoint hb.symm

/-- Returning the block of a node that was in use keeps the volume sound. -/
theorem freeNode_ok {a : Nat} (hok : VolOk sb v) (hd : Disjoint (blk sb a) v.sm.free)
    (hu : blk sb a ⊆ usable sb) :
    VolOk sb (freeNode sb v a) ∧ (freeNode sb v a).sm.free = v.sm.free ∪ blk sb a ∧
      (freeNode sb v a).dev = v.dev := by
  have hfree : (freeNode sb v a).sm.free = v.sm.free ∪ blk sb a := by
    rw [freeNode, SpaceManager.free_freeRange, blk]
  refine ⟨⟨hok.nodeSize_ge, ?_, hok.chunks_apart, ?_, ?_⟩, hfree, rfl⟩
  · rw [freeNode, SpaceManager.freeRange_nodeSize, hok.sm_nodeSize]
  · exact SpaceManager.noOverlap_freeRange hok.noOverlap hd.symm
  · rw [hfree]
    exact Set.union_subset hok.free_usable hu

end Btrfs
