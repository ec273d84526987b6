/-
  Btrfs/Runs.lean
  ===============
  **Runs of calls** — the states a formatted filesystem can reach.

  A run is a sequence of public calls that succeed, each with whatever node traffic.  The
  filesystem stays intact along a run as long as no `WriteFile` goes through an entry whose
  inode is gone.
-/
import Btrfs.Calls

namespace Btrfs

open Lib

/-! ## 1. Calls -/

/-- The mutating calls of `fs.go` on the tree. -/
inductive Call
  | writeFile (p : Path) (data : Bytes) (perm : Nat)
  | makeDir (p : Path) (perm : Nat)
  | symlink (target : Bytes) (p : Path)
  | link (oldPath newPath : Path)
  | rename (oldPath newPath : Path)
  | deleteFile (p : Path)
  | deleteDir (depth : Nat) (p : Path)
  | truncate (p : Path) (newSize : Nat)
  | setXattr (p : Path) (name : Name) (value : Bytes)
  | removeXattr (p : Path) (name : Name)
  | chmod (p : Path) (perm : Nat)
  | chown (p : Path) (uid gid : Nat)
  | chtimes (p : Path) (atime mtime : Timespec)
  deriving DecidableEq, Repr

def Call.run {σ : Type} (B : Backend σ) (now : Timespec) : Call → FileM σ Unit
  | .writeFile p data perm => Btrfs.writeFile B now p data perm
  | .makeDir p perm => Btrfs.makeDir B now p perm
  | .symlink target p => symlinkInode B now target p
  | .link oldPath newPath => linkInode B now oldPath newPath
  | .rename oldPath newPath => renameEntry B now oldPath newPath
  | .deleteFile p => Btrfs.deleteFile B now p
  | .deleteDir depth p => Btrfs.deleteDir B now depth p
  | .truncate p newSize => truncateInode B now p newSize
  | .setXattr p name value => setXattrInode B now p name value
  | .removeXattr p name => removeXattrInode B now p name
  | .chmod p perm => chmodInode B now p perm
  | .chown p uid gid => chownInode B now p uid gid
  | .chtimes p atime mtime => chtimesInode B now p atime mtime

/-- The state with the traffic of the next call laid out, and no block missed so far. -/
def MapFs.scripted (script : List (List NodeEvent)) (s : MapFs) : MapFs :=
  { s with script := script, starved := false }

theorem pathLookup_scripted {s : MapFs} {script : List (List NodeEvent)} (p : Path) :
    pathLookup mapBackend (s.scripted script) p = pathLookup mapBackend s p :=
  pathLookup_records (by rfl) p

theorem pathLookupIno_scripted {s : MapFs} {script : List (List NodeEvent)} (p : Path) :
    pathLookupIno mapBackend (s.scripted script) p = pathLookupIno mapBackend s p :=
  pathLookupIno_records (by rfl) p

theorem lookupDirEntry_scripted {s : MapFs} {script : List (List NodeEvent)} (d : Nat) (name : Name) :
    lookupDirEntry mapBackend (s.scripted script) d name = lookupDirEntry mapBackend s d name :=
  lookupDirEntry_records rfl d name

/-- One successful call that meets the condition, with whatever traffic. -/
def CallStep (cond : Call → MapFs → Prop) (s s' : MapFs) : Prop :=
  ∃ c now script, cond c s ∧ c.run mapBackend now (s.scripted script) = .ok () s'

/-- Runs of successful calls that meet the condition. -/
def Reachable (cond : Call → MapFs → Prop) : MapFs → MapFs → Prop :=
  Relation.ReflTransGen (CallStep cond)

/-- Where a call without traffic leads. -/
def Call.after (c : Call) (s : MapFs) : MapFs :=
  (outcome () (c.run mapBackend ⟨0, 0⟩ (s.scripted []))).2

theorem Call.run_after {c : Call} {s : MapFs}
    (h : succeeded (c.run mapBackend ⟨0, 0⟩ (s.scripted [])) = true) :
    c.run mapBackend ⟨0, 0⟩ (s.scripted []) = .ok () (c.after s) :=
  eq_ok_unit h

theorem CallStep.after {cond : Call → MapFs → Prop} {c : Call} {s : MapFs} (hcond : cond c s)
    (h : succeeded (c.run mapBackend ⟨0, 0⟩ (s.scripted [])) = true) :
    CallStep cond s (c.after s) :=
  ⟨c, _, _, hcond, Call.run_after h⟩

/-! ## 2. Formatted filesystems -/

def fmtNodeSize : Nat := 4096

/-- The INODE_ITEM of the root directory `Format` writes. -/
def fmtRootInode (now : Timespec) : Bytes :=
  let d := putLE 8 inodeOffGeneration 1 (zeros inodeItemSize)
  let d := putLE 4 inodeOffNLink 1 d
  let d := putLE 4 inodeOffMode 0x41ED d
  let d := putLE 8 inodeOffFlags inodeFlagNoDataSum d
  let d := writeBtrfsTimespec inodeOffATime now d
  let d := writeBtrfsTimespec inodeOffCTime now d
  let d := writeBtrfsTimespec inodeOffMTime now d
  writeBtrfsTimespec inodeOffOTime now d

/-- The self-reference of the root directory. -/
def fmtRootRef : Bytes := leBytes 8 0 ++ leBytes 2 2 ++ [0x2E, 0x2E]

/-- The items of the FS tree `Format` writes. -/
def fmtRecords (now : Timespec) : Records Key Bytes :=
  (Records.empty.insert ⟨rootDirObjID, typeInodeItem, 0⟩ (fmtRootInode now)).insert
    ⟨rootDirObjID, typeInodeRef, rootDirObjID⟩ fmtRootRef

/-- A freshly formatted and opened filesystem of any size. -/
structure Formatted (s : MapFs) : Prop where
  records : ∃ now, s.records = fmtRecords now
  nodeSize : s.sb.nodeSize = fmtNodeSize
  space : SpaceOk s
  super_apart : Disjoint superBytes s.pool

/-- What `Format` fixes beside the items: sectors are as large as nodes, and chunks, images and
    nodes are whole sectors, so that all that is free is. -/
structure FormattedImage (s : MapFs) : Prop extends Formatted s where
  sectorSize : s.sb.sectorSize = fmtNodeSize
  whole : ∀ e ∈ s.vol.sm.freeExts, fmtNodeSize ∣ e.size

theorem Decodes.fmtRootInode (now : Timespec) :
    Decodes (fmtRootInode now) inodeItemSize ⟨rootDirObjID, 0x41ED, 0, 1⟩ := by
  have hzeros : Decodes (zeros inodeItemSize) inodeItemSize ⟨rootDirObjID, 0, 0, 0⟩ :=
    ⟨List.length_replicate, le_rfl, rfl⟩
  have hgen := hzeros.putOther 8 inodeOffGeneration 1 (by decide) (Or.inr (by decide))
    (Or.inr (by decide)) (Or.inr (by decide))
  have hlinks : Decodes _ inodeItemSize ⟨rootDirObjID, 0, 0, 1⟩ := hgen.putNLink (by decide)
  have hmode : Decodes _ inodeItemSize ⟨rootDirObjID, 0x41ED, 0, 1⟩ := hlinks.putMode (n := 0x41ED) (by decide)
  have hflags := hmode.putOther 8 inodeOffFlags inodeFlagNoDataSum (by decide) (Or.inl (by decide))
    (Or.inl (by decide)) (Or.inl (by decide))
  exact (((hflags.times inodeOffATime now le_rfl (by decide)).times inodeOffCTime now
    (by decide) (by decide)).times inodeOffMTime now (by decide) (by decide)).times inodeOffOTime now
    (by decide) (by decide)

theorem mem_fmtRecords {now : Timespec} {e : Key × Bytes} (h : e ∈ (fmtRecords now).list) :
    e = (⟨rootDirObjID, typeInodeRef, rootDirObjID⟩, fmtRootRef) ∨
      e = (⟨rootDirObjID, typeInodeItem, 0⟩, fmtRootInode now) := by
  rcases Records.mem_insert.mp h with h | h
  · exact Or.inl h
  rcases Records.mem_insert.mp h with h | h
  · exact Or.inr h
  · cases h

theorem Formatted.intact {s : MapFs} (h : Formatted s) : Intact s := by
  obtain ⟨now, hrec⟩ := h.records
  have hfiles : s.files = [] := by
    rw [MapFs.files, hrec]
    rfl
  refine ⟨h.space, h.super_apart, ?_, ?_, ?_, ?_, ?_⟩
  · rw [hfiles]
    exact ⟨scattered_nil, by simp [itemSpans, spansOf], by simp [itemSpans, spansOf],
      by simp [itemSpans, spansOf]⟩
  · simp [hfiles]
  · simp [hfiles]
  · simp [hfiles]
  · intro e he
    rw [hrec] at he
    rcases mem_fmtRecords he with rfl | rfl
    · refine ⟨?_, fun htyp => absurd htyp (by decide)⟩
      rw [fitsLeaf, h.nodeSize]
      decide
    · refine ⟨?_, fun _ => (Decodes.fmtRootInode now).ge⟩
      rw [fitsLeaf, h.nodeSize, decide_eq_true_eq, (Decodes.fmtRootInode now).length_eq]
      decide

/-- A 16 MiB image, formatted: the system chunk, then one chunk for data and metadata with the
    root nodes of seven trees at its start. -/
def fmtMap : MapFs where
  sb := { nodeSize := fmtNodeSize
          sectorSize := fmtNodeSize
          totalBytes := 0x1000000
          rootLogAddr := 0x500000
          chunkLogAddr := 0x100000
          generation := 1
          sysChunks := [⟨0x100000, 0x400000, 0x100000, blockGroupSystem⟩,
            ⟨0x500000, 0xB00000, 0x500000, blockGroupData ||| blockGroupMeta⟩]
          devID := 1 }
  records := fmtRecords ⟨0, 0⟩
  nodes := [0x500000, 0x501000, 0x502000, 0x503000, 0x504000, 0x505000, 0x506000]
  vol := ⟨[], ⟨[⟨0x507000, 0xAF9000⟩], fmtNodeSize⟩⟩
  script := []
  starved := false

/-- An image of at most 64 MiB, formatted, with the given lengths of the two chunks.  (A larger one
    has a copy of the superblock within the second.) -/
def fmtImage (sysLen dataLen : Nat) : MapFs where
  sb := { nodeSize := fmtNodeSize
          sectorSize := fmtNodeSize
          totalBytes := 0x100000 + sysLen + dataLen
          rootLogAddr := 0x100000 + sysLen
          chunkLogAddr := 0x100000
          generation := 1
          sysChunks := [⟨0x100000, sysLen, 0x100000, blockGroupSystem⟩,
            ⟨0x100000 + sysLen, dataLen, 0x100000 + sysLen, blockGroupData ||| blockGroupMeta⟩]
          devID := 1 }
  records := fmtRecords ⟨0, 0⟩
  nodes := (List.range 7).map fun i => 0x100000 + sysLen + i * fmtNodeSize
  vol := ⟨[], ⟨[⟨0x100000 + sysLen + 0x7000, dataLen - 0x7000⟩], fmtNodeSize⟩⟩
  script := []
  starved := false

section fmtImage

variable {sysLen dataLen p : Nat}

theorem fmtImage_usable (h₁ : 0x100000 + sysLen ≤ p) (h₂ : p < 0x100000 + sysLen + dataLen) :
    p ∈ usable (fmtImage sysLen dataLen).sb := by
  have hfind : (fmtImage sysLen dataLen).sb.physToLog p = p := by
    have hsys : (⟨0x100000, sysLen, 0x100000, blockGroupSystem⟩ : ChunkMapping).holdsPhys p =
        false := decide_eq_false (by dsimp only; omega)
    have hdata : (⟨0x100000 + sysLen, dataLen, 0x100000 + sysLen, blockGroupData ||| blockGroupMeta⟩ :
        ChunkMapping).holdsPhys p = true := decide_eq_true (by dsimp only; omega)
    rw [Superblock.physToLog, fmtImage, List.find?_cons, hsys, List.find?_cons, hdata]
    simp only []
    omega
  refine ⟨⟨_, List.mem_cons_of_mem _ List.mem_cons_self, decide_eq_true ?_⟩, ?_⟩
  · dsimp only
    omega
  · omega

theorem fmtImage_free (hlen : 0x7000 ≤ dataLen) : p ∈ (fmtImage sysLen dataLen).vol.sm.free ↔
    0x100000 + sysLen + 0x7000 ≤ p ∧ p < 0x100000 + sysLen + dataLen := by
  simp only [SpaceManager.free, fmtImage, bytesOf, List.mem_singleton, exists_eq_left,
    Set.mem_ofPred_eq, Span.mem_bytes]
  omega

theorem fmtImage_nodeBytes (h : p ∈ (fmtImage sysLen dataLen).nodeBytes) :
    0x100000 + sysLen ≤ p ∧ p < 0x100000 + sysLen + 0x7000 := by
  obtain ⟨a, ha, hp⟩ := h
  obtain ⟨i, hi, rfl⟩ := List.mem_map.mp ha
  have hblock := Span.mem_bytes.mp hp
  simp only [fmtImage, fmtNodeSize] at hblock
  have hi := List.mem_range.mp hi
  omega

theorem formattedImage_fmtImage (hlen : 0x7000 ≤ dataLen) (hwhole : fmtNodeSize ∣ dataLen)
    (hsmall : 0x100000 + sysLen + dataLen ≤ 0x4000000) : FormattedImage (fmtImage sysLen dataLen) := by
  have hgeo : GeometryOk (fmtImage sysLen dataLen).sb := by
    refine ⟨show 0 < fmtNodeSize by decide, show fmtNodeSize ≤ maxNodeSize by decide, ?_⟩
    simp only [fmtImage, List.mem_cons, List.not_mem_nil, or_false, forall_eq_or_imp, forall_eq]
    omega
  have hnode : nodeHdrSize ≤ fmtNodeSize := by decide
  refine ⟨⟨⟨_, rfl⟩, rfl, ⟨hgeo, ⟨hnode, rfl, ?_, ?_, ?_⟩, ?_, ?_, ?_⟩, ?_⟩, rfl, ?_⟩
  · simp only [fmtImage, List.pairwise_cons, List.mem_singleton, forall_eq, List.not_mem_nil,
      List.Pairwise.nil, and_true, false_imp_iff, implies_true]
    exact Set.disjoint_left.mpr fun p hp hp' => by
      have h₁ := Span.mem_bytes.mp hp
      have h₂ := Span.mem_bytes.mp hp'
      simp only at h₁ h₂
      omega
  · exact List.pairwise_singleton _ _
  · intro p hp
    obtain ⟨h₁, h₂⟩ := (fmtImage_free hlen).mp hp
    exact fmtImage_usable (by omega) h₂
  · refine List.pairwise_map.mpr (List.pairwise_lt_range.imp fun {i j} hij => ?_)
    refine Set.disjoint_left.mpr fun p hp hp' => ?_
    have h₁ := Span.mem_bytes.mp hp
    have h₂ := Span.mem_bytes.mp hp'
    simp only [fmtImage, fmtNodeSize] at h₁ h₂
    omega
  · refine Set.disjoint_left.mpr fun p hp hp' => ?_
    have h₁ := (fmtImage_free hlen).mp hp
    have h₂ := fmtImage_nodeBytes hp'
    omega
  · intro p hp
    obtain ⟨h₁, h₂⟩ := fmtImage_nodeBytes hp
    exact fmtImage_usable h₁ (by omega)
  · refine Set.disjoint_left.mpr fun p hp hp' => ?_
    have h₁ := Span.mem_bytes.mp hp
    simp only [superblockOffset, sbfSize] at h₁
    rcases hp' with hp' | hp'
    · have h₂ := (fmtImage_free hlen).mp hp'
      omega
    · have h₂ := fmtImage_nodeBytes hp'
      omega
  · intro e he
    rw [List.mem_singleton.mp he]
    exact Nat.dvd_sub hwhole (by decide)

end fmtImage

theorem fmtMap_eq : fmtMap = fmtImage 0x400000 0xB00000 := rfl

theorem formattedImage_fmtMap : FormattedImage fmtMap :=
  fmtMap_eq ▸ formattedImage_fmtImage (by decide) (by decide) (by decide)

theorem formatted_fmtMap : Formatted fmtMap := formattedImage_fmtMap.toFormatted

/-! ## 3. Intact runs -/

variable {s s' : MapFs} {now : Timespec} {script : List (List NodeEvent)}

theorem Intact.scripted (h : Intact s) (script : List (List NodeEvent)) :
    Intact (s.scripted script) := by
  have hsp := h.space
  exact ⟨⟨hsp.geometry, hsp.vol, hsp.apart, hsp.free_nodes, hsp.nodes_usable⟩, h.super_apart,
    ⟨h.inUse.scattered, h.inUse.out, h.inUse.apart_super, h.inUse.usable⟩, h.shape, h.distinct,
    h.owned, h.items⟩

/-- A `WriteFile` does not go through an entry whose inode is gone. -/
def NotDangling : Call → MapFs → Prop
  | .writeFile p _ _, s => ∀ parentIno ino ft,
      pathLookupIno mapBackend s (splitPath p).1 = .ok parentIno →
      lookupDirEntry mapBackend s parentIno (splitPath p).2 = .ok (ino, ft) →
      HasInode s.records ino
  | _, _ => True

theorem keepsWhole_truncate {newSize : Nat} {f : MapFs → Bytes → Bytes}
    (h : TruncateEdit newSize f) : KeepsWhole f := by
  intro s d hd
  cases h with
  | grow => exact hd.put 8 inodeOffSize newSize (by decide)
  | same => exact hd
  | shrink n => exact (hd.put 8 inodeOffSize newSize (by decide)).put 8 inodeOffNBytes _ (by decide)

/-- The entry at the end of the path leads to the inode. -/
def Finds (s : MapFs) (p : Path) (ino : Nat) : Prop :=
  ∃ parentIno ft, pathLookupIno mapBackend s (splitPath p).1 = .ok parentIno ∧
    lookupDirEntry mapBackend s parentIno (splitPath p).2 = .ok (ino, ft)

/-- The inodes a call may change: a new one, the one its path leads to and the parent, or the one it
    reads; of `Rename` and `DeleteDir` nothing is said. -/
def Call.touches : Call → MapFs → Set Nat
  | .writeFile p _ _, s | .makeDir p _, s | .symlink _ p, s | .deleteFile p, s =>
    {ino | ino = nextInodeNum mapBackend s ∨ Finds s p ino ∨
      pathLookupIno mapBackend s (splitPath p).1 = .ok ino}
  | .link q p, s => {ino | pathLookupIno mapBackend s q = .ok ino ∨
      pathLookupIno mapBackend s (splitPath p).1 = .ok ino}
  | .rename _ _, _ | .deleteDir _ _, _ => Set.univ
  | .truncate p _, s | .setXattr p _ _, s | .removeXattr p _, s | .chmod p _, s | .chown p _ _, s
  | .chtimes p _ _, s => {ino | pathLookupIno mapBackend s p = .ok ino}

theorem singleton_subset_lookup {p : Path} {i : InodeItem} (h : pathLookup mapBackend s p = .ok i) :
    {i.num} ⊆ {ino | pathLookupIno mapBackend s p = .ok ino} := by
  rintro ino rfl
  change pathLookupIno mapBackend s p = .ok i.num
  rw [pathLookupIno, h]
  rfl

theorem setAttr_ok {format : String} {p : Path} {mutator : Bytes → Bytes} (hs : Intact s)
    (hmutator : ∀ d, Whole d → Whole (mutator d))
    (hrun : setAttr mapBackend now format p mutator s = .ok () s') :
    Intact s' ∧ Spares {ino | pathLookupIno mapBackend s p = .ok ino} s s' := by
  obtain ⟨i, hlook, hedit⟩ := setAttr_inv hrun
  exact (steps_updateInodeMetadata now i.num (fun _ => hmutator)).mono (singleton_subset_lookup hlook)
    s () s' hs hedit

/-- Every successful call takes an intact filesystem to an intact one, and spares the inodes that it
    does not touch. -/
theorem call_ok {c : Call} (hs : Intact s) (hcond : NotDangling c s)
    (hrun : c.run mapBackend now s = .ok () s') : Intact s' ∧ Spares (c.touches s) s s' := by
  have hpair : ∀ {T : Set Nat} {a b : Nat}, a ∈ T → b ∈ T → ({a, b} : Set Nat) ⊆ T :=
    fun ha hb => Set.pair_subset ha hb
  cases c with
  | writeFile p data perm =>
    obtain ⟨parentIno, hparent, hcase⟩ := writeFile_inv rfl hrun
    rcases hcase with ⟨ino, ft, hlook, -, hover⟩ | ⟨e, -, hcreate⟩
    · obtain ⟨hs', hspares⟩ := overwriteFile_ok hs (hcond parentIno ino ft hparent hlook) hover
      exact ⟨hs', hspares.mono (Set.singleton_subset_iff.mpr (Or.inr (Or.inl ⟨parentIno, ft, hparent, hlook⟩)))⟩
    · obtain ⟨hs', hspares⟩ := createInode_ok hs hcreate
      exact ⟨hs', hspares.mono (hpair (Or.inl rfl) (Or.inr (Or.inr hparent)))⟩
  | makeDir p perm =>
    obtain ⟨parentIno, e, hparent, -, hcreate⟩ := makeDir_inv rfl hrun
    obtain ⟨hs', hspares⟩ := createDir_ok hs hcreate
    exact ⟨hs', hspares.mono (hpair (Or.inl rfl) (Or.inr (Or.inr hparent)))⟩
  | symlink target p =>
    obtain ⟨-, -, parentIno, e, hparent, -, hcreate⟩ := symlinkInode_inv rfl hrun
    obtain ⟨hs', hspares⟩ := createInode_ok hs hcreate
    exact ⟨hs', hspares.mono (hpair (Or.inl rfl) (Or.inr (Or.inr hparent)))⟩
  | link oldPath newPath =>
    obtain ⟨src, parentIno, e, hsrc, -, -, hparent, -, hadd⟩ := linkInode_inv rfl hrun
    exact (steps_addLink now src parentIno _).mono
      (hpair (Or.inl (singleton_subset_lookup hsrc rfl)) (Or.inr hparent)) s () s' hs hadd
  | rename oldPath newPath =>
    obtain ⟨oldParent, ino, ft, newParent, s₁, -, -, -, hdst, hmove⟩ := renameEntry_inv rfl rfl hrun
    have hs₁ : Intact s₁ ∧ Spares Set.univ s s₁ := by
      rcases hdst with ⟨dst, dstFt, -, -, hremove⟩ | ⟨e, -, rfl⟩
      · exact (steps_removeInode now _).mono (Set.subset_univ _) s () s₁ hs hremove
      · exact ⟨hs, Spares.refl s₁⟩
    obtain ⟨hs', hspares⟩ := (steps_moveEntry now ino ft oldParent newParent _ _).mono
      (Set.subset_univ _) s₁ () s' hs₁.1 hmove
    exact ⟨hs', hs₁.2.trans hspares⟩
  | deleteFile p =>
    obtain ⟨parentIno, ino, ft, hparent, hlook, -, hremove⟩ := deleteFile_inv rfl hrun
    exact (steps_removeInode now _).mono
      (hpair (Or.inr (Or.inl ⟨parentIno, ft, hparent, hlook⟩)) (Or.inr (Or.inr hparent))) s () s' hs hremove
  | deleteDir depth p =>
    obtain ⟨parentIno, ino, -, -, hrest⟩ := deleteDir_inv rfl hrun
    have hdots : Steps Set.univ (mapBackend.cowDeletePrefix ino typeDirIndex) :=
      steps_deletePrefix (by decide) (by decide)
    refine Steps.bind (steps_purgeDirContents now depth ino) (fun _ => ?_) s () s' hs hrest
    exact Steps.bind (Steps.step hdots) fun _ => (steps_removeInode now _).mono (Set.subset_univ _)
  | truncate p newSize =>
    obtain ⟨i, f, s₁, hlook, -, hcut, hf, hedit⟩ := truncateInode_inv hrun
    have hs₁ : Intact s₁ ∧ Spares {i.num} s s₁ := by
      rcases hcut with rfl | ⟨-, hcut⟩
      · exact ⟨hs, Spares.refl s₁⟩
      · exact steps_cutExtents i.num newSize _ () s₁ hs hcut
    obtain ⟨hs', hspares⟩ :=
      steps_updateInodeMetadata now i.num (keepsWhole_truncate hf) s₁ () s' hs₁.1 hedit
    exact ⟨hs', (hs₁.2.trans hspares).mono (singleton_subset_lookup hlook)⟩
  | setXattr p name value =>
    obtain ⟨i, s₁, hlook, hset, hedit⟩ := setXattrInode_inv hrun
    have hs₁ : Intact s₁ ∧ Spares {i.num} s s₁ := by
      rcases hset with hset | ⟨-, hset⟩
      · exact steps_updateOther _ (by decide) (by decide) s () s₁ hs hset
      · exact steps_insertOther _ (by decide) (by decide) s () s₁ hs hset
    obtain ⟨hs', hspares⟩ :=
      steps_updateInodeMetadata now i.num (fun _ _ hd => hd) s₁ () s' hs₁.1 hedit
    exact ⟨hs', (hs₁.2.trans hspares).mono (singleton_subset_lookup hlook)⟩
  | removeXattr p name =>
    obtain ⟨i, s₁, hlook, hdel, hedit⟩ := removeXattrInode_inv hrun
    have hs₁ : Intact s₁ ∧ Spares {i.num} s s₁ :=
      steps_deleteOther (by decide) (by decide) s () s₁ hs hdel
    obtain ⟨hs', hspares⟩ :=
      steps_updateInodeMetadata now i.num (fun _ _ hd => hd) s₁ () s' hs₁.1 hedit
    exact ⟨hs', (hs₁.2.trans hspares).mono (singleton_subset_lookup hlook)⟩
  | chmod p perm =>
    exact setAttr_ok hs (fun d hd => hd.put 4 inodeOffMode _ (by decide)) hrun
  | chown p uid gid =>
    exact setAttr_ok hs (fun d hd => (hd.put 4 inodeOffUID uid (by decide)).put 4 inodeOffGID gid
      (by decide)) hrun
  | chtimes p atime mtime =>
    exact setAttr_ok hs (fun d hd => (hd.times inodeOffATime atime (by decide)).times
      inodeOffMTime mtime (by decide)) hrun

theorem NotDangling.scripted {c : Call} (h : NotDangling c s) (script : List (List NodeEvent)) :
    NotDangling c (s.scripted script) := by
  have hrec : (s.scripted script).records = s.records := rfl
  cases c with
  | writeFile p data perm =>
    intro parentIno ino ft hparent hlook
    exact h parentIno ino ft ((pathLookupIno_records hrec _).symm.trans hparent)
      ((lookupDirEntry_records hrec _ _).symm.trans hlook)
  | _ => trivial

theorem intact_call {c : Call} (hs : Intact s) (hcond : NotDangling c s)
    (hrun : c.run mapBackend now (s.scripted script) = .ok () s') : Intact s' :=
  (call_ok (hs.scripted script) (hcond.scripted script) hrun).1

theorem Reachable.intact {s₀ : MapFs} (hfmt : Formatted s₀) (hreach : Reachable NotDangling s₀ s) :
    Intact s := by
  induction hreach with
  | refl => exact hfmt.intact
  | tail _ hstep ih =>
    obtain ⟨c, now, script, hcond, hrun⟩ := hstep
    exact intact_call ih hcond hrun

theorem Reachable.geometry {s₀ : MapFs} (hfmt : Formatted s₀) (hreach : Reachable NotDangling s₀ s) :
    SameGeometry s₀.sb s.sb := by
  induction hreach with
  | refl => exact SameGeometry.refl _
  | tail hreach hstep ih =>
    obtain ⟨c, now, script, hcond, hrun⟩ := hstep
    have hs : Intact _ := Reachable.intact hfmt hreach
    exact ih.trans (call_ok (hs.scripted script) (hcond.scripted script) hrun).2.geometry

/-- **No live byte is free** along a run: free extents, nodes, file extents and the superblock
    are apart, and every extent has its inode. -/
theorem reachable_live_apart {s₀ : MapFs} (hfmt : Formatted s₀) (hreach : Reachable NotDangling s₀ s) :
    s.vol.sm.NoOverlap ∧ s.nodes.Pairwise (fun a b => Disjoint (s.block a) (s.block b)) ∧
      Disjoint s.vol.sm.free s.nodeBytes ∧ Disjoint superBytes s.pool ∧
      InUse s (itemSpans s.sb s.files) ∧ ∀ e ∈ s.files, HasInode s.records e.1.objID := by
  have h := hreach.intact hfmt
  exact ⟨h.space.vol.noOverlap, h.space.apart, h.space.free_nodes, h.super_apart, h.inUse, h.owned⟩

theorem reachable_live_apart_symlink : ∃ s, s.files ≠ [] ∧ InUse s (itemSpans s.sb s.files) := by
  have hstep : CallStep NotDangling fmtMap _ :=
    .after (c := .symlink [1] [[2]]) trivial (by decide +kernel)
  exact ⟨_, by decide +kernel, (reachable_live_apart formatted_fmtMap (.single hstep)).2.2.2.2.1⟩

end Btrfs
