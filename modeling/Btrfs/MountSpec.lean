/-
  Btrfs/MountSpec.lean
  ====================
  **What mounting reserves.**

  `live` is what an image has in use: its superblock copies, the nodes of every tree
  and the extents of every FS tree.  `reserved` is what the walks of `buildSpaceManager`
  take out of the chunks, stated over the trees on the device and not over the walks.
  `openFromDevices_free` says that the free list is what is left, to the byte.

  The two sets differ.  The walks look for regular extents, in the mounted FS tree
  alone; they take out a node's length for two of the three superblock copies; and each
  stops after `maxTreeNodes` nodes.  What they pass over is `missed`, and mounting is
  safe exactly when no missed byte lies in a chunk the free list starts from, or another
  of the walks takes it out (`mount_free_disjoint_live_iff`).
-/
import Btrfs.Mount
import Btrfs.Walk

namespace Btrfs

open Lib LTree

/-! ## 1. Trees on a device -/

/-- A tree on the device with its root at `a`, of the depth the driver accepts. -/
structure TreeAt (sb : Superblock) (dev : Device) (a : Nat) {h : Nat} (t : LTree h) : Prop where
  root : addr h t = a
  held : Held sb dev h t
  apart : Apart sb h t
  depth : h ≤ maxBtreeDepth

/-- The nodes of the tree at `a`, in the order of the walk. -/
def NodesAt (sb : Superblock) (dev : Device) (a : Nat) (ns : List Nat) : Prop :=
  ∃ h, ∃ t : LTree h, TreeAt sb dev a t ∧ ns = nodeAddrs h t

/-- An item of the tree at `a`. -/
def ItemAt (sb : Superblock) (dev : Device) (a : Nat) (it : LeafItem) : Prop :=
  ∃ h, ∃ t : LTree h, TreeAt sb dev a t ∧ it ∈ items h t

/-- The bytes of the nodes with the given addresses. -/
def nodeBytes (sb : Superblock) (ns : List Nat) : Set Nat := {p | ∃ a ∈ ns, p ∈ blk sb a}

/-- The bytes of the extents of one type that the tree at `a` refers to. -/
def extentBytes (sb : Superblock) (dev : Device) (typ a : Nat) : Set Nat :=
  {p | ∃ it, ItemAt sb dev a it ∧ it.k.typ = typeExtentData ∧
    ∃ s, extentSpan sb typ it.data = some s ∧ p ∈ s.bytes}

/-- The trees reachable from the superblock and from the ROOT_ITEMs. -/
def treeRoots (sb : Superblock) (dev : Device) : Set Nat :=
  {a | a = sb.rootLogAddr ∨ a = sb.chunkLogAddr ∨
    ∃ it, ItemAt sb dev sb.rootLogAddr it ∧ rootBytenr it = some a}

/-- The trees with files: the FS_TREE, subvolumes and snapshots. -/
def isFsTreeID (objID : Nat) : Prop :=
  objID = fsTreeObjID ∨ firstFreeObjID ≤ objID ∧ objID ≤ lastFreeObjID

def fsTreeRoots (sb : Superblock) (dev : Device) : Set Nat :=
  {a | ∃ it, ItemAt sb dev sb.rootLogAddr it ∧ rootBytenr it = some a ∧ isFsTreeID it.k.objID}

/-! ## 2. What is in use, what is reserved, what is passed over -/

def superblockMirrors : List Nat := [0x10000, 0x4000000, 0x4000000000]

/-- The bytes of the superblock copies the device has room for. -/
def superCopies (sb : Superblock) : Set Nat :=
  {p | ∃ o ∈ superblockMirrors, o + sbfSize ≤ sb.totalBytes ∧ p ∈ (⟨o, sbfSize⟩ : Span).bytes}

/-- Everything the image has in use. -/
def live (sb : Superblock) (dev : Device) : Set Nat :=
  superCopies sb ∪
  {p | ∃ a ∈ treeRoots sb dev, ∃ ns, NodesAt sb dev a ns ∧ p ∈ nodeBytes sb ns} ∪
  {p | ∃ a ∈ fsTreeRoots sb dev, p ∈ extentBytes sb dev extentDataRegular a ∨
    p ∈ extentBytes sb dev extentDataPrealloc a}

/-- The bytes of the chunks the free list starts from. -/
def seeded (sb : Superblock) : Set Nat := bytesOf (seedExtents sb)

def fixedBytes (sb : Superblock) : Set Nat :=
  {p | ∃ o ∈ fixedRegions, p ∈ (⟨o, sb.nodeSize⟩ : Span).bytes}

/-- What the mount takes out: the fixed regions, the first `maxTreeNodes` nodes of every tree and
    the regular extents of the mounted tree. -/
def reserved (sb : Superblock) (dev : Device) (fsTreeRoot : Nat) : Set Nat :=
  fixedBytes sb ∪
  {p | ∃ a ∈ treeRoots sb dev, ∃ ns, NodesAt sb dev a ns ∧
    p ∈ nodeBytes sb (ns.take maxTreeNodes)} ∪
  extentBytes sb dev extentDataRegular fsTreeRoot

/-- What is in use and no walk looks for: the rest of the superblock copies, the nodes after the
    first `maxTreeNodes`, preallocated extents, and the extents of trees that are not mounted. -/
def missed (sb : Superblock) (dev : Device) (fsTreeRoot : Nat) : Set Nat :=
  (superCopies sb \ fixedBytes sb) ∪
  {p | ∃ a ∈ treeRoots sb dev, ∃ ns, NodesAt sb dev a ns ∧
    p ∈ nodeBytes sb (ns.drop maxTreeNodes)} ∪
  {p | ∃ a ∈ fsTreeRoots sb dev, p ∈ extentBytes sb dev extentDataPrealloc a} ∪
  {p | ∃ a ∈ fsTreeRoots sb dev, a ≠ fsTreeRoot ∧ p ∈ extentBytes sb dev extentDataRegular a}

/-- A well-formed image, as the superblock with its chunk map shows it: a tree stands at each
    root, the root tree is within the node count, and the mounted tree is one of its FS trees. -/
structure ImageOk (sb : Superblock) (dev : Device) (fsTreeRoot : Nat) : Prop where
  trees : ∀ a ∈ treeRoots sb dev, ∃ h, ∃ t : LTree h, TreeAt sb dev a t
  rootTree : ∀ ns, NodesAt sb dev sb.rootLogAddr ns → ns.length ≤ maxTreeNodes
  fsTree : fsTreeRoot ∈ fsTreeRoots sb dev

/-! ## 3. The free list after the mount -/

section

variable {sb : Superblock} {dev : Device} {sm : SpaceManager} {a : Nat}

/-- Taking out one thing after another takes out all of them. -/
theorem free_foldl {α : Type} {g : SpaceManager → α → SpaceManager} {R : α → Set Nat}
    (hg : ∀ sm x, (g sm x).free = sm.free \ R x) :
    ∀ (l : List α) (sm : SpaceManager), (l.foldl g sm).free = sm.free \ {p | ∃ x ∈ l, p ∈ R x} := by
  intro l
  induction l with
  | nil =>
    intro sm
    simp
  | cons x l ih =>
    intro sm
    rw [List.foldl_cons, ih, hg, Set.sdiff_sdiff]
    congr 1
    ext p
    simp

/-- The block of a node, when a chunk holds its address. -/
def mappedBlk (sb : Superblock) (a : Nat) : Set Nat :=
  {p | ∃ phys, sb.logToPhys a = .ok phys ∧ p ∈ (⟨phys, sb.nodeSize⟩ : Span).bytes}

theorem free_reserveNode (sm : SpaceManager) (a : Nat) :
    (sm.reserveNode sb a).free = sm.free \ mappedBlk sb a := by
  rw [SpaceManager.reserveNode]
  cases hphys : sb.logToPhys a with
  | error e =>
    have hnone : mappedBlk sb a = ∅ := by
      rw [Set.eq_empty_iff_forall_notMem]
      rintro p ⟨phys, hok, -⟩
      rw [hphys] at hok
      cases hok
    rw [hnone, Set.sdiff_empty]
  | ok phys =>
    have hsome : mappedBlk sb a = (⟨phys, sb.nodeSize⟩ : Span).bytes := by
      ext p
      simp [mappedBlk, hphys]
    rw [hsome]
    exact SpaceManager.free_remove _ _

theorem mappedBlk_of_readable {n : Node} (hread : readNode sb dev a = .ok n) :
    mappedBlk sb a = blk sb a := by
  rw [readNode] at hread
  cases hphys : sb.physAddr a with
  | error e =>
    rw [hphys] at hread
    cases hread
  | ok phys =>
    have hlog : sb.logToPhys a = .ok phys := hphys
    ext p
    simp [mappedBlk, hlog, blk, physAddr_eq_ok hphys]

/-- What the walk from one root takes out. -/
def walkedBytes (sb : Superblock) (dev : Device) (a : Nat) : Set Nat :=
  {p | ∃ x ∈ (walkNodeAddrs sb dev a).1, p ∈ mappedBlk sb x}

theorem free_reserveTreeNodes (sm : SpaceManager) (a : Nat) :
    (reserveTreeNodes sb dev sm a).free = sm.free \ walkedBytes sb dev a :=
  free_foldl free_reserveNode _ sm

/-- From the root of a tree it takes out the first `maxTreeNodes` nodes. -/
theorem walkedBytes_eq (hns : 0 < sb.nodeSize) {ns : List Nat} (hn : NodesAt sb dev a ns) :
    walkedBytes sb dev a = nodeBytes sb (ns.take maxTreeNodes) := by
  obtain ⟨h, t, ht, rfl⟩ := hn
  have hwalk : (walkNodeAddrs sb dev a).1 = (nodeAddrs h t).take maxTreeNodes := by
    rw [← ht.root]
    exact walkNodeAddrs_held hns ht.held ht.apart ht.depth
  have hblk : ∀ x ∈ (nodeAddrs h t).take maxTreeNodes, mappedBlk sb x = blk sb x := by
    intro x hx
    obtain ⟨n, hread⟩ := Held.readable h t ht.held x (List.mem_of_mem_take hx)
    exact mappedBlk_of_readable hread
  ext p
  rw [walkedBytes, hwalk]
  constructor
  · rintro ⟨x, hx, hp⟩
    exact ⟨x, hx, hblk x hx ▸ hp⟩
  · rintro ⟨x, hx, hp⟩
    exact ⟨x, hx, (hblk x hx).symm ▸ hp⟩

theorem walkedBytes_iff (hns : 0 < sb.nodeSize) {h : Nat} {t : LTree h} (ht : TreeAt sb dev a t)
    {p : Nat} : p ∈ walkedBytes sb dev a ↔
      ∃ ns, NodesAt sb dev a ns ∧ p ∈ nodeBytes sb (ns.take maxTreeNodes) := by
  constructor
  · intro hp
    have hn : NodesAt sb dev a (nodeAddrs h t) := ⟨h, t, ht, rfl⟩
    exact ⟨_, hn, walkedBytes_eq hns hn ▸ hp⟩
  · rintro ⟨ns, hn, hp⟩
    rw [walkedBytes_eq hns hn]
    exact hp

/-- A walk over leaves that ends well has seen the items of the tree. -/
theorem itemAt_iff {h : Nat} {t : LTree h} (ht : TreeAt sb dev a t)
    (hwalk : (walkLeaves sb dev a).2 = none) (it : LeafItem) :
    ItemAt sb dev a it ↔ it ∈ (walkLeaves sb dev a).1.flatten := by
  have hout : ∀ {h' : Nat} {t' : LTree h'}, TreeAt sb dev a t' →
      (walkLeaves sb dev a).1.flatten = items h' t' := by
    intro h' t' ht'
    rw [← ht'.root] at hwalk ⊢
    rw [walkLeaves_out ht'.held hwalk, flatten_leaves]
  constructor
  · rintro ⟨h', t', ht', hit⟩
    rw [hout ht']
    exact hit
  · intro hit
    rw [hout ht] at hit
    exact ⟨h, t, ht, hit⟩

variable {fsTreeRoot : Nat}

theorem ImageOk.root_mem (himg : ImageOk sb dev fsTreeRoot) : fsTreeRoot ∈ treeRoots sb dev := by
  obtain ⟨it, hit, hroot, -⟩ := himg.fsTree
  exact Or.inr (Or.inr ⟨it, hit, hroot⟩)

/-- The walk over the root tree comes to all of its items. -/
theorem ImageOk.rootItem_iff (himg : ImageOk sb dev fsTreeRoot) (hns : 0 < sb.nodeSize)
    {it : LeafItem} : ItemAt sb dev sb.rootLogAddr it ↔
      it ∈ (walkLeaves sb dev sb.rootLogAddr).1.flatten := by
  obtain ⟨h, t, ht⟩ := himg.trees sb.rootLogAddr (Or.inl rfl)
  have hcount : count h t ≤ maxTreeNodes := by
    rw [← length_nodeAddrs]
    exact himg.rootTree _ ⟨h, t, ht, rfl⟩
  have hwalk : walkLeaves sb dev sb.rootLogAddr = (leaves h t, none) := by
    rw [← ht.root]
    exact walkLeaves_ok hns ht.held ht.apart ht.depth hcount
  exact itemAt_iff ht (by rw [hwalk]) it

/-- The node walks together: those of the three known roots, then those of the ROOT_ITEMs. -/
theorem ImageOk.walked_iff (himg : ImageOk sb dev fsTreeRoot) (hns : 0 < sb.nodeSize) {p : Nat} :
    ((∃ a ∈ [sb.rootLogAddr, sb.chunkLogAddr, fsTreeRoot], p ∈ walkedBytes sb dev a) ∨
      ∃ a ∈ (walkLeaves sb dev sb.rootLogAddr).1.flatten.filterMap rootBytenr,
        p ∈ walkedBytes sb dev a) ↔
    ∃ a ∈ treeRoots sb dev, ∃ ns, NodesAt sb dev a ns ∧
      p ∈ nodeBytes sb (ns.take maxTreeNodes) := by
  have htree : ∀ a ∈ treeRoots sb dev, (p ∈ walkedBytes sb dev a ↔
      ∃ ns, NodesAt sb dev a ns ∧ p ∈ nodeBytes sb (ns.take maxTreeNodes)) := by
    intro a ha
    obtain ⟨h, t, ht⟩ := himg.trees a ha
    exact walkedBytes_iff hns ht
  have hitem : ∀ a, a ∈ (walkLeaves sb dev sb.rootLogAddr).1.flatten.filterMap rootBytenr ↔
      ∃ it, ItemAt sb dev sb.rootLogAddr it ∧ rootBytenr it = some a := by
    intro a
    simp only [List.mem_filterMap, himg.rootItem_iff hns]
  constructor
  · rintro (⟨a, ha, hp⟩ | ⟨a, ha, hp⟩)
    · have hmem : a ∈ treeRoots sb dev := by
        simp only [List.mem_cons, List.not_mem_nil, or_false] at ha
        rcases ha with rfl | rfl | rfl
        · exact Or.inl rfl
        · exact Or.inr (Or.inl rfl)
        · exact himg.root_mem
      exact ⟨a, hmem, (htree a hmem).mp hp⟩
    · have hmem : a ∈ treeRoots sb dev := Or.inr (Or.inr ((hitem a).mp ha))
      exact ⟨a, hmem, (htree a hmem).mp hp⟩
  · rintro ⟨a, hmem, hp⟩
    have hp := (htree a hmem).mpr hp
    rcases hmem with rfl | rfl | hit
    · exact Or.inl ⟨_, by simp, hp⟩
    · exact Or.inl ⟨_, by simp, hp⟩
    · exact Or.inr ⟨a, (hitem a).mpr hit, hp⟩

theorem free_reserveExtent (sm : SpaceManager) (s : Span) :
    (sm.reserveExtent s).free = sm.free \ s.bytes :=
  SpaceManager.free_remove s.start s.size

/-- The walk over data extents, when it succeeds. -/
theorem free_reserveDataExtents {sm' : SpaceManager} {h : Nat} {t : LTree h}
    (ht : TreeAt sb dev fsTreeRoot t)
    (hrun : reserveDataExtents sb dev sm fsTreeRoot = .ok sm') :
    sm'.free = sm.free \ extentBytes sb dev extentDataRegular fsTreeRoot := by
  rw [reserveDataExtents] at hrun
  have hmem := fun hnone it => itemAt_iff ht hnone it
  obtain ⟨ls, oe, hwalk⟩ : ∃ ls oe, walkLeaves sb dev fsTreeRoot = (ls, oe) := ⟨_, _, rfl⟩
  rw [hwalk] at hrun hmem
  cases oe with
  | some e => cases hrun
  | none =>
    simp only [Except.ok.injEq] at hrun
    rw [← hrun, free_foldl free_reserveExtent]
    congr 1
    ext p
    simp only [extentBytes, hmem rfl, List.mem_filterMap, dataExtent, Set.mem_ofPred_eq]
    constructor
    · rintro ⟨s, ⟨it, hit, hs⟩, hp⟩
      split_ifs at hs with htyp
      exact ⟨it, hit, not_not.mp htyp, s, hs, hp⟩
    · rintro ⟨it, hit, htyp, s, hs, hp⟩
      exact ⟨s, ⟨it, hit, by rw [if_neg (not_not.mpr htyp)]; exact hs⟩, hp⟩

theorem free_buildSpaceManager (himg : ImageOk sb dev fsTreeRoot) (hns : 0 < sb.nodeSize)
    (hrun : buildSpaceManager sb dev fsTreeRoot = .ok sm) :
    sm.free = seeded sb \ reserved sb dev fsTreeRoot := by
  obtain ⟨h, t, ht⟩ := himg.trees _ himg.root_mem
  rw [buildSpaceManager] at hrun
  split at hrun
  · rename_i sm' hdata
    cases hrun
    rw [free_reserveDataExtents ht hdata, reserveRootTreeReferencedTrees,
      free_foldl free_reserveTreeNodes, free_foldl free_reserveTreeNodes,
      free_foldl (R := fun phys => (⟨phys, sb.nodeSize⟩ : Span).bytes) fun sm phys =>
        SpaceManager.free_remove phys sb.nodeSize]
    simp only [Set.sdiff_sdiff]
    have hseed : SpaceManager.free ⟨seedExtents sb, sb.nodeSize⟩ = seeded sb := rfl
    rw [hseed, reserved]
    congr 1
    ext p
    have hwalked := himg.walked_iff hns (p := p)
    simp only [Set.mem_union, Set.mem_ofPred_eq] at hwalked ⊢
    rw [← hwalked, fixedBytes, Set.mem_ofPred_eq]
    simp only [or_assoc]
  · cases hrun

end

/-! ## 4. The open filesystem -/

theorem addChunk_nodeSize (sb : Superblock) (it : LeafItem) :
    (sb.addChunk it).nodeSize = sb.nodeSize := by
  rw [Superblock.addChunk]
  split
  · rfl
  · split_ifs <;> rfl

theorem foldl_addChunk_nodeSize (l : List LeafItem) (sb : Superblock) :
    (l.foldl Superblock.addChunk sb).nodeSize = sb.nodeSize := by
  induction l generalizing sb with
  | nil => rfl
  | cons it l ih => rw [List.foldl_cons, ih, addChunk_nodeSize]

/-- What opening an image does: the superblock is sane, and the free list is built over the chunk
    map the chunk tree completes. -/
theorem openFromDevices_ok {dev : Device} {fs : Fs} (hopen : openFromDevices dev = .ok fs) :
    nodeHdrSize ≤ fs.sb.nodeSize ∧ fs.vol.dev = dev ∧
      buildSpaceManager fs.sb dev fs.fsTreeRoot = .ok fs.vol.sm := by
  rw [openFromDevices] at hopen
  cases hsb : readSuperblock dev with
  | error e => rw [hsb] at hopen; cases hopen
  | ok sb₀ =>
    rw [hsb] at hopen
    simp only at hopen
    cases hload : loadChunkTree dev sb₀ with
    | error e => rw [hload] at hopen; cases hopen
    | ok sb =>
      rw [hload] at hopen
      simp only at hopen
      cases hroot : resolveRootTree sb dev with
      | error e => rw [hroot] at hopen; cases hopen
      | ok root =>
        rw [hroot] at hopen
        simp only at hopen
        cases hsm : buildSpaceManager sb dev root with
        | error e => rw [hsm] at hopen; cases hopen
        | ok sm =>
          rw [hsm] at hopen
          cases hopen
          refine ⟨?_, rfl, hsm⟩
          have hsize : sb.nodeSize = sb₀.nodeSize := by
            rw [loadChunkTree] at hload
            split at hload
            · cases hload
              exact foldl_addChunk_nodeSize _ _
            · cases hload
          rw [hsize]
          rw [readSuperblock] at hsb
          split at hsb
          · split_ifs at hsb
            cases hsb
            omega
          · cases hsb

/-- After the mount the free list is the chunks without what is reserved, to the byte. -/
theorem openFromDevices_free {dev : Device} {fs : Fs} (hopen : openFromDevices dev = .ok fs)
    (himg : ImageOk fs.sb dev fs.fsTreeRoot) :
    fs.vol.sm.free = seeded fs.sb \ reserved fs.sb dev fs.fsTreeRoot := by
  obtain ⟨hsize, -, hsm⟩ := openFromDevices_ok hopen
  exact free_buildSpaceManager himg (lt_of_lt_of_le (by decide) hsize) hsm

section

variable {sb : Superblock} {dev : Device} {fsTreeRoot p : Nat}

/-- What is in use is looked for or missed. -/
theorem mem_live_cases (hp : p ∈ live sb dev) :
    p ∈ reserved sb dev fsTreeRoot ∨ p ∈ missed sb dev fsTreeRoot := by
  rcases hp with (hp | ⟨a, ha, ns, hn, x, hx, hp⟩) | ⟨a, ha, hp | hp⟩
  · by_cases hfix : p ∈ fixedBytes sb
    · exact Or.inl (Or.inl (Or.inl hfix))
    · exact Or.inr (Or.inl (Or.inl (Or.inl ⟨hp, hfix⟩)))
  · rw [← List.take_append_drop maxTreeNodes ns, List.mem_append] at hx
    rcases hx with hx | hx
    · exact Or.inl (Or.inl (Or.inr ⟨a, ha, ns, hn, x, hx, hp⟩))
    · exact Or.inr (Or.inl (Or.inl (Or.inr ⟨a, ha, ns, hn, x, hx, hp⟩)))
  · by_cases hroot : a = fsTreeRoot
    · exact Or.inl (Or.inr (hroot ▸ hp))
    · exact Or.inr (Or.inr ⟨a, ha, hroot, hp⟩)
  · exact Or.inr (Or.inl (Or.inr ⟨a, ha, hp⟩))

theorem missed_subset_live : missed sb dev fsTreeRoot ⊆ live sb dev := by
  rintro p (((hp | ⟨a, ha, ns, hn, x, hx, hp⟩) | ⟨a, ha, hp⟩) | ⟨a, ha, -, hp⟩)
  · exact Or.inl (Or.inl hp.1)
  · exact Or.inl (Or.inr ⟨a, ha, ns, hn, x, List.mem_of_mem_drop hx, hp⟩)
  · exact Or.inr ⟨a, ha, Or.inr hp⟩
  · exact Or.inr ⟨a, ha, Or.inl hp⟩

end

/-- The free list of a mounted image holds no byte in use exactly when every missed byte of a chunk
    it starts from is reserved for another reason. -/
theorem mount_free_disjoint_live_iff {dev : Device} {fs : Fs}
    (hopen : openFromDevices dev = .ok fs) (himg : ImageOk fs.sb dev fs.fsTreeRoot) :
    Disjoint fs.vol.sm.free (live fs.sb dev) ↔
      ∀ p ∈ missed fs.sb dev fs.fsTreeRoot, p ∈ seeded fs.sb →
        p ∈ reserved fs.sb dev fs.fsTreeRoot := by
  rw [openFromDevices_free hopen himg, Set.disjoint_left]
  constructor
  · intro hdis p hmiss hseed
    by_contra hres
    exact hdis ⟨hseed, hres⟩ (missed_subset_live hmiss)
  · rintro hall p ⟨hseed, hres⟩ hlive
    rcases mem_live_cases hlive with hin | hmiss
    · exact hres hin
    · exact hres (hall p hmiss hseed)

/-! ## 5. Two images of one file -/

section

variable {sb : Superblock} {dev : Device} {a : Nat} {hdr : NodeHdr} {its : List LeafItem}

theorem treeAt_leaf (hread : readNode sb dev a = .ok (.leaf hdr its)) :
    TreeAt sb dev a (h := 0) (⟨a, hdr, its⟩ : LeafBlk) :=
  ⟨rfl, hread, trivial, Nat.zero_le _⟩

theorem nodesAt_leaf (hns : 0 < sb.nodeSize) (hread : readNode sb dev a = .ok (.leaf hdr its))
    {ns : List Nat} (hn : NodesAt sb dev a ns) : ns = [a] := by
  obtain ⟨h, t, ht, rfl⟩ := hn
  have hleaf := treeAt_leaf hread
  have hwalk := walkNodeAddrs_held hns hleaf.held hleaf.apart hleaf.depth
  have hwalk' := walkNodeAddrs_held hns ht.held ht.apart ht.depth
  rw [ht.root] at hwalk'
  have htake : (nodeAddrs h t).take maxTreeNodes = [a] := hwalk'.symm.trans hwalk
  have hlen : (nodeAddrs h t).length ≤ maxTreeNodes := by
    have := congrArg List.length htake
    rw [List.length_take, List.length_singleton] at this
    have : 1 < maxTreeNodes := by decide
    omega
  rwa [List.take_of_length_le hlen] at htake

theorem itemAt_leaf (hns : 0 < sb.nodeSize) (hread : readNode sb dev a = .ok (.leaf hdr its))
    {it : LeafItem} : ItemAt sb dev a it ↔ it ∈ its := by
  have ht := treeAt_leaf hread
  have hwalk : walkLeaves sb dev a = ([its], none) :=
    walkLeaves_ok hns ht.held ht.apart ht.depth (show 1 ≤ maxTreeNodes by decide)
  rw [itemAt_iff ht (by rw [hwalk]), hwalk]
  simp

end

/-- A superblock whose sys_chunk_array names the SYSTEM chunk only. -/
def imageSuper : Superblock where
  nodeSize := 4096
  sectorSize := 4096
  totalBytes := 0x1000000
  rootLogAddr := 0x501000
  chunkLogAddr := 0x100000
  generation := 1
  sysChunks := [⟨0x100000, 0x400000, 0x100000, blockGroupSystem⟩]
  devID := 1

/-- The only item of a leaf. -/
def soleItem (k : Key) (data : Bytes) : LeafItem := ⟨k, 4096 - nodeHdrSize - data.length, data⟩

/-- A chunk of 4 MiB for data and metadata. -/
def imageChunk : LeafItem :=
  soleItem ⟨256, typeChunkItem, 0x500000⟩
    (leBytes 8 0x400000 ++ zeros 16 ++ leBytes 8 (blockGroupData ||| blockGroupMeta) ++ zeros 12 ++
      leBytes 2 1 ++ zeros 2 ++ leBytes 8 1 ++ leBytes 8 0x500000 ++ zeros 16)

def imageRoot : LeafItem :=
  soleItem ⟨fsTreeObjID, typeRootItem, 0⟩
    (zeros rootItemOffBytenr ++ leBytes 8 0x502000 ++ zeros 255)

/-- One extent of a sector at 6 MiB, of the given type. -/
def imageExtent (typ : Nat) : LeafItem :=
  soleItem ⟨257, typeExtentData, 0⟩ (zeros extDataOffType ++ leBytes 1 typ ++
    leBytes 8 0x600000 ++ leBytes 8 0x1000 ++ leBytes 8 0 ++ leBytes 8 0x1000)

def imageOf (typ : Nat) : Device :=
  [⟨0x502000, 4096, .node (.leaf ⟨0x502000, 1⟩ [imageExtent typ])⟩,
   ⟨0x501000, 4096, .node (.leaf ⟨0x501000, 1⟩ [imageRoot])⟩,
   ⟨0x100000, 4096, .node (.leaf ⟨0x100000, 1⟩ [imageChunk])⟩,
   ⟨superblockOffset, sbfSize, .super imageSuper⟩]

def imageSb : Superblock :=
  { imageSuper with sysChunks := imageSuper.sysChunks ++
      [⟨0x500000, 0x400000, 0x500000, blockGroupData ||| blockGroupMeta⟩] }

/-- The image opened, with the free list it gets. -/
def imageFs (typ : Nat) (freeExts : List FreeExtent) : Fs :=
  ⟨imageSb, 0x502000, ⟨imageOf typ, ⟨freeExts, 4096⟩⟩⟩

theorem open_regular : openFromDevices (imageOf extentDataRegular) =
    .ok (imageFs extentDataRegular
      [⟨0x500000, 0x1000⟩, ⟨0x503000, 0xFD000⟩, ⟨0x601000, 0x2FF000⟩]) := by
  decide +kernel

theorem open_prealloc : openFromDevices (imageOf extentDataPrealloc) =
    .ok (imageFs extentDataPrealloc [⟨0x500000, 0x1000⟩, ⟨0x503000, 0x3FD000⟩]) := by
  decide +kernel

theorem image_reads (typ : Nat) :
    readNode imageSb (imageOf typ) 0x502000 = .ok (.leaf ⟨0x502000, 1⟩ [imageExtent typ]) ∧
    readNode imageSb (imageOf typ) 0x501000 = .ok (.leaf ⟨0x501000, 1⟩ [imageRoot]) ∧
    readNode imageSb (imageOf typ) 0x100000 = .ok (.leaf ⟨0x100000, 1⟩ [imageChunk]) :=
 by
  have hphys : imageSb.physAddr 0x502000 = .ok 0x502000 ∧
      imageSb.physAddr 0x501000 = .ok 0x501000 ∧ imageSb.physAddr 0x100000 = .ok 0x100000 := by
    decide +kernel
  have hns : imageSb.nodeSize = 4096 := rfl
  simp [readNode, hphys, hns, imageOf, WriteLog.readBlock, Write.touches]

theorem image_rootItem {typ : Nat} {it : LeafItem} :
    ItemAt imageSb (imageOf typ) imageSb.rootLogAddr it ↔ it = imageRoot := by
  have hread : readNode imageSb (imageOf typ) imageSb.rootLogAddr = _ := (image_reads typ).2.1
  rw [itemAt_leaf (by decide) hread, List.mem_singleton]

theorem image_extentItem {typ : Nat} {it : LeafItem} :
    ItemAt imageSb (imageOf typ) 0x502000 it ↔ it = imageExtent typ := by
  rw [itemAt_leaf (by decide) (image_reads typ).1, List.mem_singleton]

theorem rootBytenr_imageRoot : rootBytenr imageRoot = some 0x502000 := by decide +kernel

theorem image_fsTreeRoots {typ a : Nat} :
    a ∈ fsTreeRoots imageSb (imageOf typ) ↔ a = 0x502000 := by
  constructor
  · rintro ⟨it, hit, hroot, -⟩
    rw [image_rootItem.mp hit, rootBytenr_imageRoot] at hroot
    exact (Option.some.inj hroot).symm
  · rintro rfl
    exact ⟨imageRoot, image_rootItem.mpr rfl, rootBytenr_imageRoot, Or.inl rfl⟩

theorem image_treeRoots {typ a : Nat} (ha : a ∈ treeRoots imageSb (imageOf typ)) :
    a = 0x501000 ∨ a = 0x100000 ∨ a = 0x502000 := by
  rcases ha with rfl | rfl | ⟨it, hit, hroot⟩
  · exact Or.inl rfl
  · exact Or.inr (Or.inl rfl)
  · rw [image_rootItem.mp hit, rootBytenr_imageRoot] at hroot
    exact Or.inr (Or.inr (Option.some.inj hroot).symm)

theorem image_tree {typ a : Nat} (ha : a ∈ treeRoots imageSb (imageOf typ)) :
    ∃ hdr its, readNode imageSb (imageOf typ) a = .ok (.leaf hdr its) := by
  obtain ⟨hfs, hroot, hchunk⟩ := image_reads typ
  rcases image_treeRoots ha with rfl | rfl | rfl
  · exact ⟨_, _, hroot⟩
  · exact ⟨_, _, hchunk⟩
  · exact ⟨_, _, hfs⟩

theorem image_ok (typ : Nat) : ImageOk imageSb (imageOf typ) 0x502000 := by
  refine ⟨?_, ?_, image_fsTreeRoots.mpr rfl⟩
  · intro a ha
    obtain ⟨hdr, its, hread⟩ := image_tree ha
    exact ⟨0, _, treeAt_leaf hread⟩
  · intro ns hn
    have hread : readNode imageSb (imageOf typ) imageSb.rootLogAddr = _ := (image_reads typ).2.1
    rw [nodesAt_leaf (by decide) hread hn]
    decide

/-- The only missed bytes are those of the preallocated extent. -/
theorem image_missed {typ p : Nat} (hp : p ∈ missed imageSb (imageOf typ) 0x502000) :
    p ∈ extentBytes imageSb (imageOf typ) extentDataPrealloc 0x502000 := by
  rcases hp with ((⟨⟨o, ho, hroom, hp⟩, hfix⟩ | ⟨a, ha, ns, hn, x, hx, -⟩) | ⟨a, ha, hp⟩) |
    ⟨a, ha, hne, -⟩
  · simp only [superblockMirrors, List.mem_cons, List.not_mem_nil, or_false] at ho
    have htotal : imageSb.totalBytes = 0x1000000 := rfl
    have hlen : sbfSize = 0x1000 := rfl
    rcases ho with rfl | rfl | rfl
    · exact absurd ⟨_, by simp [fixedRegions], hp⟩ hfix
    · omega
    · omega
  · obtain ⟨hdr, its, hread⟩ := image_tree ha
    rw [nodesAt_leaf (by decide) hread hn, List.drop_eq_nil_of_le (show 1 ≤ maxTreeNodes by decide)] at hx
    cases hx
  · rw [← image_fsTreeRoots.mp ha]
    exact hp
  · exact absurd (image_fsTreeRoots.mp ha) hne

/-- With a regular extent nothing is missed, and the free list holds no byte in use. -/
theorem mount_regular_disjoint :
    ∃ fs, openFromDevices (imageOf extentDataRegular) = .ok fs ∧
      Disjoint fs.vol.sm.free (live fs.sb (imageOf extentDataRegular)) := by
  refine ⟨_, open_regular, (mount_free_disjoint_live_iff open_regular (image_ok _)).mpr ?_⟩
  intro p hp _
  obtain ⟨it, hit, -, s, hs, -⟩ := image_missed hp
  rw [image_extentItem.mp hit] at hs
  have hnone : extentSpan imageSb extentDataPrealloc (imageExtent extentDataRegular).data = none := by
    decide +kernel
  rw [hnone] at hs
  cases hs

/-- With a preallocated one, the extent is free. -/
theorem mount_prealloc_free :
    ∃ fs, openFromDevices (imageOf extentDataPrealloc) = .ok fs ∧
      ImageOk fs.sb (imageOf extentDataPrealloc) fs.fsTreeRoot ∧
      ¬ Disjoint fs.vol.sm.free (live fs.sb (imageOf extentDataPrealloc)) := by
  refine ⟨_, open_prealloc, image_ok _, Set.not_disjoint_iff.mpr ⟨0x600000, ?_, Or.inr ?_⟩⟩
  · exact ⟨⟨0x503000, 0x3FD000⟩, by simp [imageFs], Span.mem_bytes.mpr (by decide)⟩
  · refine ⟨0x502000, image_fsTreeRoots.mpr rfl, Or.inr ⟨_, image_extentItem.mpr rfl, rfl,
      ⟨0x600000, 0x1000⟩, by decide +kernel, Span.mem_bytes.mpr (by decide)⟩⟩

end Btrfs
