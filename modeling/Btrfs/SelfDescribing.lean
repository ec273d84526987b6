/-
  Btrfs/SelfDescribing.lean
  =========================
  **The extent tree describes itself.**

  When `buildMultiLevelExtentTree` succeeds there is a search tree on the device whose
  records are the ones it was given, one METADATA_ITEM for each node of the tree and one
  BLOCK_GROUP_ITEM for each chunk, and whose blocks are what the free list has lost.

  The last two writes of the builder are made in place.  A node is read through the chunk
  map, but the ROOT_TREE leaf is written at the device offset that equals its logical
  address.  Where a chunk does not start at the same logical and physical offset this may
  be a block that was free a moment ago: then the write falls on the new tree.
-/
import Btrfs.ExtentBuild

namespace Btrfs

open Lib SpaceManager LTree

variable {sb : Superblock} {inp : MultiLevelExtentInput} {sm sm' : SpaceManager} {v v' : Vol}

/-! ## 1. The accepted candidate -/

/-- Every turn starts from the same free bytes, and so does the one that is accepted. -/
theorem sizeExtentTree_ok : ∀ (iter blockCount : Nat) {sm sm' : SpaceManager} {lay : ExtentLayout},
    0 < blockCount → Spaced sb sm → sizeExtentTree sb inp iter blockCount sm = .ok lay sm' →
      ∃ n sm₀, 0 < n ∧ Spaced sb sm₀ ∧ sm₀.free = sm.free ∧ LaidOut sb inp n sm₀ lay sm' := by
  intro iter
  induction iter with
  | zero => intro blockCount sm sm' lay _ _ h; cases h
  | succ iter ih =>
    intro blockCount sm sm' lay hb hs h
    obtain ⟨cand, sm₁, htry, h⟩ := run_bind.mp h
    have hcand := tryExtentLayout_ok htry
    split_ifs at h
    · obtain ⟨rfl, rfl⟩ := run_pure.mp h
      exact ⟨blockCount, sm, hb, hs, rfl, hcand⟩
    · obtain ⟨u, sm₂, hfree, h⟩ := run_bind.mp h
      obtain rfl : freeLayout sb sm₁ cand = sm₂ := by
        cases hfree
        rfl
      -- the candidate's blocks go back where they came from
      obtain ⟨ps, hps, -, hback, -⟩ := hcand.blocks hs
      have htook := hps.took hs.noOverlap
      rw [freeLayout_eq_giveBack, hback, ← hs.nodeSize] at h
      have hd : Disjoint sm₁.free (bytesOf (blockSpans sm.nodeSize ps)) := by
        rw [htook.free_eq]
        exact Set.disjoint_sdiff_left
      have hsame : (sm₁.giveBack sm.nodeSize ps).free = sm.free := by
        rw [free_giveBack, htook.free_eq, Set.sdiff_union_of_subset htook.was_free]
      have hs' : Spaced sb (sm₁.giveBack sm.nodeSize ps) :=
        ⟨hs.pos, by rw [giveBack_nodeSize, htook.nodeSize_eq, hs.nodeSize],
          noOverlap_giveBack htook.noOverlap htook.apart hd, by rw [hsame]; exact hs.mapped⟩
      obtain ⟨n, sm₀, hn, hs₀, hfree₀, hlay⟩ :=
        ih _ (Nat.add_pos_left (hcand.ranges_pos hb) _) hs' h
      exact ⟨n, sm₀, hn, hs₀, hfree₀.trans hsame, hlay⟩

/-- The records of a candidate have increasing keys. -/
theorem LaidOut.recs_sorted {blockCount : Nat} {lay : ExtentLayout} (hs : Spaced sb sm)
    (h : Describable sb inp sm.free) (hlay : LaidOut sb inp blockCount sm lay sm') :
    lay.recs.Pairwise fun a b => a.1 < b.1 := by
  have hnd := hlay.nodup_weighed hs h
  rw [List.map_map] at hnd
  have hkeys : ((inp.baseRecs ++ lay.allBlocks.map ownRec ++
      inp.bgLenFlags.map (blockGroupRec lay.bgUsed)).map Prod.fst).Nodup :=
    List.Nodup.of_map (eraseLevel lay.allocated) (by rw [List.map_map]; exact hnd)
  have hkeys' : (lay.recs.map Prod.fst).Nodup := by
    rw [hlay.recs, ((sortRecs_perm _).map _).nodup_iff]
    exact hkeys
  rw [List.Nodup, List.pairwise_map] at hkeys'
  have hsorted := sortRecs_sorted (inp.baseRecs ++ lay.allBlocks.map ownRec ++
    inp.bgLenFlags.map (blockGroupRec lay.bgUsed))
  rw [← hlay.recs] at hsorted
  exact hsorted.imp₂ (fun a b hle hne => lt_of_le_of_ne hle hne) hkeys'

/-! ## 2. The tree of a candidate -/

/-- The tree `t` is what the candidate `lay` amounts to, and `plan` its blocks. -/
structure TreeOf (sb : Superblock) (lay : ExtentLayout) (plan : List (Nat × Node)) (h : Nat)
    (t : LTree h) : Prop where
  height : h = lay.levels.length
  root : addr h t = interiorRootLog lay
  nodes_perm : (nodes h t).Perm plan
  blocks : (levelled h t).Perm lay.allBlocks
  contents_eq : contents h t = lay.recs
  ordered : STree.Ordered LeafItem.k h (shape h t)
  full : STree.Full h (shape h t)
  fans : Fans (internalCapacity sb) h t

theorem writeMultiLevelTree_ok {blockCount : Nat} {lay : ExtentLayout}
    (hicap : 2 ≤ internalCapacity sb) (hb : 0 < blockCount)
    (hlay : LaidOut sb inp blockCount sm lay sm') (hkeys : lay.recs.Pairwise fun a b => a.1 < b.1)
    (hrun : writeMultiLevelTree sb lay v = .ok () v') :
    ∃ plan h, ∃ t : LTree h, v' = { v with dev := writeAll sb v.dev plan } ∧
      TreeOf sb lay plan h t := by
  rw [writeMultiLevelTree] at hrun
  split_ifs at hrun with hlen
  · cases hrun
  rw [not_not] at hlen
  obtain ⟨u, v₁, hleaves, hlevels⟩ := run_bind.mp hrun
  obtain ⟨hitems, rfl⟩ := writeExtentLeaves_ok _ _ _ _ hleaves
  have hfst : (lay.ranges.zip lay.leafLogs).map Prod.fst = lay.ranges := List.map_fst_zip hlen.le
  have hsnd : (lay.ranges.zip lay.leafLogs).map Prod.snd = lay.leafLogs := List.map_snd_zip hlen.ge
  have hflat : ((lay.ranges.zip lay.leafLogs).map Prod.fst).flatten = lay.recs := by
    rw [hfst, hlay.ranges]
    exact flatten_pack _
  have hsorted : ∀ l ∈ lay.ranges.zip lay.leafLogs, l.1.Pairwise fun a b => a.1 < b.1 := by
    intro l hl
    rw [← hflat] at hkeys
    exact (List.pairwise_flatten.mp hkeys).1 l.1 (List.mem_map_of_mem hl)
  have hkv : ∀ l ∈ lay.ranges.zip lay.leafLogs, (leafItemsOf sb l.1).map LeafItem.kv = l.1 :=
    fun l hl => map_kv_extentLeafItems (hsorted l hl) (hitems l hl)
  have hne : ∀ l ∈ lay.ranges.zip lay.leafLogs, l.1 ≠ [] := by
    intro l hl
    have hmem := (List.of_mem_zip hl).1
    rw [hlay.ranges] at hmem
    exact pack_ne_nil l.1 hmem
  have hF : ForestOk sb (leafForest sb (lay.ranges.zip lay.leafLogs)) :=
    leafForest_ok hkv hne (by rw [hflat]; exact hkeys)
  have hcount : (leafForest sb (lay.ranges.zip lay.leafLogs)).length = lay.leafLogs.length := by
    rw [leafForest, List.length_map, List.length_zip, hlen, Nat.min_self]
  have hrefs : (lay.ranges.map firstKey).zip lay.leafLogs =
      (leafForest sb (lay.ranges.zip lay.leafLogs)).map Kid.ref := by
    rw [leafForest_ref, List.zip_map_left]
    rfl
  rw [hrefs] at hlevels
  obtain ⟨up, h, t, rfl, hcrown⟩ := writeExtentLevels_ok hicap lay.interiorLogs 0 _ lay.levels _ v'
    (by rw [hcount, hlay.nLeaves]; exact leavesFor_pos _ hb) (by rw [hcount, hlay.levels]; rfl)
    hlay.counts hF hlevels
  have hperm := hcrown.nodes_perm
  rw [nodes_leafForest] at hperm
  refine ⟨_, h, t, by rw [← writeAll_append], ?_, ?_, hperm, ?_, ?_, hcrown.ordered, hcrown.full,
    hcrown.fans⟩
  · rw [hcrown.height, ← hlay.counts, List.length_map, Nat.zero_add]
  · have haddrs : (leafForest sb (lay.ranges.zip lay.leafLogs)).map (fun c => addr 0 c.sub) =
        lay.leafLogs := by
      rw [leafForest, List.map_map]
      exact hsnd
    rw [hcrown.root, rootOver, haddrs]
    rfl
  · have hlevelled := hperm.map fun p => (p.1, p.2.level)
    rw [List.map_append, hcrown.levels] at hlevelled
    have hleaf : (leafPlan sb (lay.ranges.zip lay.leafLogs)).map (fun p => (p.1, p.2.level)) =
        lay.leafLogs.map (·, 0) := by
      conv_rhs => rw [← hsnd, List.map_map]
      rw [leafPlan, List.map_map]
      rfl
    rw [hleaf] at hlevelled
    exact hlevelled
  · rw [contents, hcrown.items_eq, kv_leafForest hkv, hflat]

/-! ## 3. Chunks and their block groups -/

namespace UsedMap

theorem get_cons (e : Nat × Nat) (m : UsedMap) (cs : Nat) :
    get (e :: m) cs = if e.1 = cs then e.2 else get m cs := by
  obtain ⟨k, n⟩ := e
  by_cases h : k = cs
  · subst h
    simp [get, List.lookup]
  · have hne : (cs == k) = false := beq_eq_false_iff_ne.mpr (Ne.symm h)
    simp [get, List.lookup, h, hne]

theorem get_add (cs n cs' : Nat) : ∀ (m : UsedMap),
    get (add cs n m) cs' = get m cs' + if cs = cs' then n else 0 := by
  intro m
  induction m with
  | nil =>
    rw [add, get_cons]
    split_ifs <;> simp [get]
  | cons e m ih =>
    rw [add]
    by_cases he : e.1 = cs
    · rw [if_pos he, get_cons, get_cons, he]
      split_ifs <;> rfl
    · rw [if_neg he, get_cons, get_cons, ih]
      split_ifs with h1 h2
      · exact absurd (h1.trans h2.symm) he
      · rfl
      · rfl
      · rfl

end UsedMap

/-- The tree's own blocks add a node each to the chunk they lie in. -/
theorem get_usedWith (cs : Nat) (blocks : List (Nat × Nat)) :
    (usedWith sb inp blocks).get cs = inp.baseBGUsed.get cs +
      sb.nodeSize * (blocks.map Prod.fst).countP fun a => decide (inp.chunkOf a = some cs) := by
  have hfold : ∀ (f : UsedMap → Nat × Nat → UsedMap), (∀ m b, (f m b).get cs =
      m.get cs + if inp.chunkOf b.1 = some cs then sb.nodeSize else 0) →
      ∀ (blocks : List (Nat × Nat)) (m : UsedMap), (blocks.foldl f m).get cs =
      m.get cs + sb.nodeSize * (blocks.map Prod.fst).countP fun a => decide (inp.chunkOf a = some cs) := by
    intro f hf blocks
    induction blocks with
    | nil => intro m; simp
    | cons b blocks ih =>
      intro m
      rw [List.foldl_cons, ih, hf, List.map_cons, List.countP_cons]
      simp only [decide_eq_true_eq]
      split_ifs <;> ring
  refine hfold _ ?_ blocks inp.baseBGUsed
  intro m b
  cases hc : inp.chunkOf b.1 with
  | none => simp
  | some c => simp only [UsedMap.get_add, Option.some.injEq]

/-- What the chunk list has to be: no two chunks claim a logical address, and no two start at the
    same one. -/
structure ChunksOk (sb : Superblock) : Prop where
  apart : sb.sysChunks.Pairwise fun m m' =>
    Disjoint (⟨m.logStart, m.size⟩ : Span).bytes (⟨m'.logStart, m'.size⟩ : Span).bytes
  starts : (sb.sysChunks.map ChunkMapping.logStart).Nodup

theorem ChunksOk.bgLenFlags_eq (h : ChunksOk sb) :
    sb.bgLenFlags = sb.sysChunks.map fun c => (c.logStart, c.size, c.profile) := by
  have hfold : ∀ (cs done : List ChunkMapping), ((done ++ cs).map ChunkMapping.logStart).Nodup →
      cs.foldl (fun m c => m.filter (fun e => e.1 ≠ c.logStart) ++ [(c.logStart, c.size, c.profile)])
        (done.map fun c => (c.logStart, c.size, c.profile)) =
      (done ++ cs).map fun c => (c.logStart, c.size, c.profile) := by
    intro cs
    induction cs with
    | nil => intro done _; simp
    | cons c cs ih =>
      intro done hnd
      have hkeep : (done.map fun c => (c.logStart, c.size, c.profile)).filter
          (fun e => e.1 ≠ c.logStart) = done.map fun c => (c.logStart, c.size, c.profile) := by
        refine List.filter_eq_self.mpr fun e he => ?_
        obtain ⟨c', hc', rfl⟩ := List.mem_map.mp he
        rw [List.map_append, List.nodup_append] at hnd
        simpa using hnd.2.2 c'.logStart (List.mem_map_of_mem hc') c.logStart (by simp)
      have hassoc : done ++ c :: cs = (done ++ [c]) ++ cs := by simp
      rw [List.foldl_cons, hkeep, hassoc, ← ih (done ++ [c]) (hassoc ▸ hnd), List.map_append]
      rfl
  exact hfold sb.sysChunks [] h.starts

/-- The chunk of an address is the one that holds it. -/
theorem ChunksOk.chunkOf_iff (h : ChunksOk sb) {c : ChunkMapping} (hc : c ∈ sb.sysChunks) (a : Nat) :
    sb.chunkOf a = some c.logStart ↔ c.holdsLog a = true := by
  have hone : sb.sysChunks.Pairwise fun m m' => ¬ (m.holdsLog a = true ∧ m'.holdsLog a = true) := by
    refine h.apart.imp fun {m m'} hd hboth => ?_
    simp only [ChunkMapping.holdsLog, decide_eq_true_eq] at hboth
    exact Set.disjoint_left.mp hd hboth.1 hboth.2
  constructor
  · intro heq
    obtain ⟨m, hm, hstart⟩ := Option.map_eq_some_iff.mp heq
    have hmc : m = c := List.inj_on_of_nodup_map h.starts (List.mem_of_find?_eq_some hm) hc hstart
    have hholds := List.find?_some hm
    exact hmc ▸ hholds
  · intro hholds
    rw [Superblock.chunkOf, find?_eq_of_pairwise hone hc hholds]
    rfl

/-! ## 4. The old tree's blocks -/

/-- The blocks the builder releases before it starts. -/
def oldBlocks (sb : Superblock) (inp : MultiLevelExtentInput) (v : Vol) : List Nat :=
  if inp.oldExtSafe then (walkNodeAddrs sb v.dev inp.oldExtRoot).1 else []

/-- The bytes of the blocks at `as`. -/
def blockBytes (sb : Superblock) (as : List Nat) : Set Nat := {p | ∃ a ∈ as, p ∈ blk sb a}

/-- Blocks in use, apart from each other, that may be released. -/
structure Releasable (sb : Superblock) (v : Vol) (as : List Nat) : Prop where
  apart : as.Pairwise fun a b => Disjoint (blk sb a) (blk sb b)
  live : ∀ a ∈ as, Disjoint (blk sb a) v.sm.free
  usable : ∀ a ∈ as, blk sb a ⊆ usable sb

theorem Releasable.run : ∀ {as : List Nat} {v : Vol}, VolOk sb v → Releasable sb v as →
    VolOk sb (as.foldl (freeNode sb) v) ∧
      (as.foldl (freeNode sb) v).sm.free = v.sm.free ∪ blockBytes sb as ∧
      (as.foldl (freeNode sb) v).dev = v.dev := by
  intro as
  induction as with
  | nil => intro v hok _; exact ⟨hok, by simp [blockBytes], rfl⟩
  | cons a as ih =>
    intro v hok hr
    obtain ⟨hapart, has⟩ := List.pairwise_cons.mp hr.apart
    obtain ⟨hlive, hlives⟩ := List.forall_mem_cons.mp hr.live
    obtain ⟨hus, huss⟩ := List.forall_mem_cons.mp hr.usable
    obtain ⟨hok₁, hfree₁, hdev₁⟩ := freeNode_ok hok hlive hus
    have hrest : Releasable sb (freeNode sb v a) as := by
      refine ⟨has, fun b hb => ?_, huss⟩
      rw [hfree₁, Set.disjoint_union_right]
      exact ⟨hlives b hb, (hapart b hb).symm⟩
    obtain ⟨hok₂, hfree₂, hdev₂⟩ := ih hok₁ hrest
    refine ⟨hok₂, ?_, hdev₂.trans hdev₁⟩
    rw [List.foldl_cons, hfree₂, hfree₁, Set.union_assoc]
    congr 1
    ext p
    simp [blockBytes]

/-- The volume the sizing loop starts from. -/
def startVol (sb : Superblock) (inp : MultiLevelExtentInput) (v : Vol) : Vol :=
  (oldBlocks sb inp v).foldl (freeNode sb) v

/-! ## 5. The writes in place -/

theorem trace_leafLog_mem (k : Key) : ∀ (h : Nat) (t : LTree h), STree.Full h (shape h t) →
    (trace k h t).leafLog ∈ nodeAddrs h t := by
  intro h
  induction h with
  | zero => intro t _; exact List.mem_singleton.mpr rfl
  | succ h ih =>
    intro (b : NodeBlk (LTree h)) hfull
    obtain ⟨hne, hfk⟩ := shape_full_kids hfull
    obtain ⟨A, c, B, hf⟩ := focus_isSome Kid.sep k hne
    have hc : c ∈ b.kids := focus_mem hf
    simp only [trace, hf]
    exact List.mem_cons_of_mem _ (List.mem_flatMap.mpr ⟨c, hc, ih c.sub (hfk c hc)⟩)

/-- The leaf that is rewritten is a node of the ROOT_TREE. -/
theorem rootItemLeafLogAddr_mem {dev : Device} {objID leafLog h : Nat} {R : LTree h}
    (hns : 0 < sb.nodeSize) (hR : Held sb dev h R) (hap : Apart sb h R)
    (hfull : STree.Full h (shape h R)) (hroot : sb.rootLogAddr = addr h R)
    (hrun : rootItemLeafLogAddr sb dev objID = .ok leafLog) : leafLog ∈ nodeAddrs h R := by
  have hself : addr h R ∈ nodeAddrs h R := by
    cases h with
    | zero => exact List.mem_singleton.mpr rfl
    | succ h => exact List.mem_cons_self
  simp only [rootItemLeafLogAddr, hroot, held_root hR] at hrun
  cases hn : node h R with
  | leaf hdr items =>
    simp only [hn, Except.ok.injEq] at hrun
    exact hrun ▸ hself
  | internal hdr below ptrs =>
    simp only [hn, tracePath_held hns hR hap hfull] at hrun
    split_ifs at hrun
    simp only [Except.ok.injEq] at hrun
    exact hrun ▸ trace_leafLog_mem _ h R hfull

theorem repointExtentRoot_inv {newRoot level : Nat}
    (hrun : repointExtentRoot sb newRoot level v = .ok () v') :
    ∃ leafLog n, rootItemLeafLogAddr sb v.dev extentTreeObjID = .ok leafLog ∧
      v' = { v with dev := writeNodeAtPhys sb v.dev leafLog n } := by
  rw [repointExtentRoot] at hrun
  split at hrun
  · cases hrun
  next leafLog hleaf =>
  split at hrun
  · cases hrun
  · cases hrun
  next hdr items hread =>
  split at hrun
  · cases hrun
  next idx hidx =>
  split at hrun
  · cases hrun
  next it hit =>
  split_ifs at hrun
  cases hrun
  exact ⟨leafLog, _, hleaf, rfl⟩

theorem updateSuperBytesUsed_inv {used : Nat} (hrun : updateSuperBytesUsed sb used v = .ok () v') :
    ∃ s, v' = { v with dev := ⟨superblockOffset, sbfSize, .super s⟩ :: v.dev } := by
  rw [updateSuperBytesUsed] at hrun
  split at hrun
  · cases hrun
    exact ⟨_, rfl⟩
  · cases hrun

/-! ## 6. The theorem -/

/-- The bytes the builder may use: the free ones and those of the old tree when it is released. -/
def room (sb : Superblock) (inp : MultiLevelExtentInput) (v : Vol) : Set Nat :=
  v.sm.free ∪ blockBytes sb (oldBlocks sb inp v)

/-- What the builder relies on.  The chunk map is sound and the input made from it, physical offsets
    have 64 bits, and nothing that is in use is in the room: not a block a record is given for, not
    the superblock, not a node of the ROOT_TREE.  A node of the ROOT_TREE must also be out of the
    room at the device offset that equals its logical address, which is where it is rewritten. -/
structure BuilderOk (sb : Superblock) (inp : MultiLevelExtentInput) (v : Vol) : Prop where
  vol : VolOk sb v
  starts : (sb.sysChunks.map ChunkMapping.logStart).Nodup
  groups : inp.bgLenFlags = sb.bgLenFlags
  chunkOf : inp.chunkOf = sb.chunkOf
  old : Releasable sb v (oldBlocks sb inp v)
  keys : (inp.baseRecs.map Prod.fst).Nodup
  noGroups : ∀ r ∈ inp.baseRecs, r.1.typ ≠ typeBlockGroupItem
  records : ∀ r ∈ inp.baseRecs, r.1.typ = typeMetadataItem →
    ∀ p ∈ room sb inp v, r.1.objID ≠ sb.physToLog p
  offsets : ∀ p ∈ room sb inp v, p < 2 ^ 64
  super : Disjoint (⟨superblockOffset, sbfSize⟩ : Span).bytes (room sb inp v)
  root : ∃ h, ∃ R : LTree h, sb.rootLogAddr = addr h R ∧ Held sb v.dev h R ∧ Apart sb h R ∧
    STree.Full h (shape h R) ∧ Disjoint (foot sb h R) (room sb inp v) ∧
    ∀ a ∈ nodeAddrs h R, Disjoint (⟨a, sb.nodeSize⟩ : Span).bytes (room sb inp v)

/-- The block group of a chunk, its use counted with the nodes of `t`. -/
def groupWith (sb : Superblock) (inp : MultiLevelExtentInput) {h : Nat} (t : LTree h)
    (c : ChunkMapping) : ItemRec :=
  (⟨c.logStart, typeBlockGroupItem, c.size⟩,
    buildBlockGroupItemBytes (inp.baseBGUsed.get c.logStart +
      sb.nodeSize * (nodeAddrs h t).countP fun a => c.holdsLog a) c.profile)

/-- The tree `t` on the device is sound, describes itself, and took its blocks from the room. -/
structure SelfDescribing (sb : Superblock) (inp : MultiLevelExtentInput) (v v' : Vol) {h : Nat}
    (t : LTree h) : Prop where
  held : Held sb v'.dev h t
  sorted : (contents h t).Pairwise fun a b => a.1 < b.1
  records : (contents h t).Perm
    (inp.baseRecs ++ (levelled h t).map ownRec ++ sb.sysChunks.map (groupWith sb inp t))
  found : ∀ r ∈ contents h t, ∃ it, searchTree sb v'.dev (addr h t) r.1 = .ok it ∧ it.kv = r
  fans : Fans (internalCapacity sb) h t
  distinct : (nodeAddrs h t).Nodup
  apart : Apart sb h t
  free : v'.sm.free = room sb inp v \ foot sb h t

namespace BuilderOk

theorem chunksOk (h : BuilderOk sb inp v) : ChunksOk sb := ⟨h.vol.chunks_apart, h.starts⟩

theorem start (h : BuilderOk sb inp v) : VolOk sb (startVol sb inp v) ∧
    (startVol sb inp v).sm.free = room sb inp v ∧ (startVol sb inp v).dev = v.dev := h.old.run h.vol

theorem describable (h : BuilderOk sb inp v) : Describable sb inp (room sb inp v) := by
  refine ⟨h.keys, h.noGroups, h.records, ?_⟩
  rw [h.groups, h.chunksOk.bgLenFlags_eq, List.map_map]
  exact h.starts

end BuilderOk

theorem VolOk.spaced (h : VolOk sb v) : Spaced sb v.sm :=
  ⟨lt_of_lt_of_le (by decide) h.nodeSize_ge, h.sm_nodeSize, h.noOverlap,
    fun _ hp => h.physFromLog_physToLog hp⟩

theorem buildMultiLevelExtentTree_inv (hrun : buildMultiLevelExtentTree sb inp v = .ok () v') :
    2 ≤ internalCapacity sb ∧ ∃ lay sm₁ v₂ v₃,
      sizeExtentTree sb inp 64 1 (startVol sb inp v).sm = .ok lay sm₁ ∧
      writeMultiLevelTree sb lay { startVol sb inp v with sm := sm₁ } = .ok () v₂ ∧
      repointExtentRoot sb (interiorRootLog lay) lay.levels.length v₂ = .ok () v₃ ∧
      updateSuperBytesUsed sb lay.bgUsed.total v₃ = .ok () v' := by
  have hstart : (if inp.oldExtSafe = true then releaseTree sb inp.oldExtRoot v else v) =
      startVol sb inp v := by
    rw [startVol, oldBlocks, releaseTree]
    split_ifs <;> rfl
  rw [buildMultiLevelExtentTree, hstart] at hrun
  split_ifs at hrun with hicap
  refine ⟨not_lt.mp hicap, ?_⟩
  obtain ⟨lay, v₁, hsize, hrun⟩ := run_bind.mp hrun
  obtain ⟨_, v₂, hwrite, hrun⟩ := run_bind.mp hrun
  obtain ⟨_, v₃, hroot, hsuper⟩ := run_bind.mp hrun
  rw [onSpace] at hsize
  cases hsm : sizeExtentTree sb inp 64 1 (startVol sb inp v).sm with
  | error e sm =>
    rw [hsm] at hsize
    cases hsize
  | ok lay' sm =>
    rw [hsm] at hsize
    cases hsize
    exact ⟨lay, sm, v₂, v₃, rfl, hwrite, hroot, hsuper⟩

/-- Where the blocks of the tree lie: in the room, apart from each other, and readable there. -/
structure Sown (sb : Superblock) (space : Set Nat) {h : Nat} (t : LTree h) : Prop where
  apart : (nodeAddrs h t).Pairwise fun a b => Disjoint (blk sb a) (blk sb b)
  distinct : (nodeAddrs h t).Nodup
  addr_ne : ∀ a ∈ nodeAddrs h t, a ≠ 0
  mapped : ∀ a ∈ nodeAddrs h t, sb.physAddr a = .ok (sb.physFromLog a)
  inside : foot sb h t ⊆ space

/-- The tree of a candidate lies where its blocks were allocated, and its depth is bounded. -/
theorem TreeOf.placed {blockCount h : Nat} {lay : ExtentLayout} {plan : List (Nat × Node)}
    {t : LTree h} (hvol : VolOk sb v) (hoff : ∀ p ∈ v.sm.free, p < 2 ^ 64) (hs : Spaced sb sm)
    (hsame : sm.free = v.sm.free) (hlay : LaidOut sb inp blockCount sm lay sm')
    (hicap : 2 ≤ internalCapacity sb) (htree : TreeOf sb lay plan h t) :
    Sown sb v.sm.free t ∧ sm'.free = v.sm.free \ foot sb h t ∧ h ≤ maxBtreeDepth := by
  obtain ⟨ps, hps, hlogs, -, hpsfree, hnd⟩ := hlay.blocks hs
  have htook := hps.took hs.noOverlap
  rw [hsame] at hpsfree
  have haddrs : (nodeAddrs h t).Perm lay.allocated := by
    rw [← fst_levelled, ← lay.fst_allBlocks]
    exact htree.blocks.map _
  have hblk : ∀ p ∈ ps, blk sb (sb.physToLog p) = (⟨p, sm.nodeSize⟩ : Span).bytes := by
    intro p hp
    rw [blk, hvol.physFromLog_physToLog (hpsfree p hp), hs.nodeSize]
  have hmem : ∀ a ∈ nodeAddrs h t, ∃ p ∈ ps, sb.physToLog p = a := by
    intro a ha
    have := haddrs.mem_iff.mp ha
    rw [hlogs] at this
    exact List.mem_map.mp this
  have hfoot : foot sb h t = bytesOf (blockSpans sm.nodeSize ps) := by
    ext b
    rw [mem_foot_iff, mem_bytesOf]
    constructor
    · rintro ⟨a, ha, hb⟩
      obtain ⟨p, hp, rfl⟩ := hmem a ha
      exact ⟨_, List.mem_map_of_mem hp, hblk p hp ▸ hb⟩
    · rintro ⟨e, he, hb⟩
      obtain ⟨p, hp, rfl⟩ := List.mem_map.mp he
      refine ⟨sb.physToLog p, haddrs.mem_iff.mpr ?_, (hblk p hp).symm ▸ hb⟩
      rw [hlogs]
      exact List.mem_map_of_mem hp
  refine ⟨⟨?_, haddrs.nodup_iff.mpr hnd, ?_, ?_, ?_⟩, ?_, ?_⟩
  · rw [haddrs.pairwise_iff fun hd => hd.symm, hlogs, List.pairwise_map]
    have hapart := htook.apart
    rw [Scattered, blockSpans, List.pairwise_map] at hapart
    refine hapart.imp_of_mem fun {p q} hp hq hd => ?_
    rw [hblk p hp, hblk q hq]
    exact hd
  · intro a ha
    obtain ⟨p, hp, rfl⟩ := hmem a ha
    exact (hvol.free_usable (hpsfree p hp)).2
  · intro a ha
    obtain ⟨p, hp, rfl⟩ := hmem a ha
    rw [hvol.physAddr_physToLog (hpsfree p hp), hvol.physFromLog_physToLog (hpsfree p hp)]
  · rw [hfoot, ← hsame]
    exact htook.was_free
  · rw [htook.free_eq, hsame, hfoot]
  · -- blocks at distinct 64-bit offsets are too few for a deeper tree
    have hfew : ps.length ≤ 2 ^ 64 := by
      have hns : 0 < sm.nodeSize := hs.nodeSize ▸ hs.pos
      have hsub := (List.subperm_of_subset (nodup_of_scattered hns htook.apart)
        fun p hp => List.mem_range.mpr (hoff p (hpsfree p hp))).length_le
      rwa [List.length_range] at hsub
    have hleaves : lay.leafLogs.length ≤ 2 ^ 64 := by
      have hlen := congrArg List.length hlogs
      rw [ExtentLayout.allocated, List.length_append, List.length_map] at hlen
      omega
    rw [htree.height, hlay.levels]
    exact length_levelSizes_le hicap 64 _ hleaves

/-- The records of a candidate, said of its tree. -/
theorem TreeOf.records {blockCount h : Nat} {lay : ExtentLayout} {plan : List (Nat × Node)}
    {t : LTree h} (hok : BuilderOk sb inp v) (hlay : LaidOut sb inp blockCount sm lay sm')
    (htree : TreeOf sb lay plan h t) :
    (contents h t).Perm
      (inp.baseRecs ++ (levelled h t).map ownRec ++ sb.sysChunks.map (groupWith sb inp t)) := by
  have haddrs : (lay.allBlocks.map Prod.fst).Perm (nodeAddrs h t) := by
    rw [← fst_levelled]
    exact (htree.blocks.map _).symm
  have hgroups : inp.bgLenFlags.map (blockGroupRec lay.bgUsed) =
      sb.sysChunks.map (groupWith sb inp t) := by
    rw [hok.groups, hok.chunksOk.bgLenFlags_eq, List.map_map]
    refine List.map_congr_left fun c hc => ?_
    have hcount : (lay.allBlocks.map Prod.fst).countP
        (fun a => decide (inp.chunkOf a = some c.logStart)) =
        (nodeAddrs h t).countP fun a => c.holdsLog a := by
      rw [haddrs.countP_eq, hok.chunkOf]
      refine List.countP_congr fun a _ => ?_
      rw [decide_eq_true_eq]
      exact hok.chunksOk.chunkOf_iff hc a
    simp only [Function.comp_apply, blockGroupRec, groupWith, hlay.bgUsed, get_usedWith, hcount]
  rw [htree.contents_eq, hlay.recs, ← hgroups]
  exact (sortRecs_perm _).trans ((((htree.blocks.symm.map ownRec).append_left _)).append_right _)

/-- A search for a record of an ordered tree finds it. -/
theorem searchTree_contents {dev : Device} {h : Nat} {t : LTree h} (hns : 0 < sb.nodeSize)
    (ht : Held sb dev h t) (hap : Apart sb h t) (hfull : STree.Full h (shape h t))
    (hord : STree.Ordered LeafItem.k h (shape h t)) (hd : h ≤ maxBtreeDepth) {r : ItemRec}
    (hr : r ∈ contents h t) : ∃ it, searchTree sb dev (addr h t) r.1 = .ok it ∧ it.kv = r := by
  obtain ⟨it, hit, rfl⟩ := List.mem_map.mp hr
  refine ⟨it, ?_, rfl⟩
  have hone : (items h t).Pairwise fun x y =>
      ¬ (decide (x.k = it.k) = true ∧ decide (y.k = it.k) = true) := by
    refine (hord.sorted h (shape h t)).imp fun {x y} hlt hboth => ?_
    simp only [decide_eq_true_eq] at hboth
    exact absurd hlt (by rw [hboth.1, hboth.2]; exact lt_irrefl _)
  have hfind := find?_eq_of_pairwise hone hit (by simp)
  rw [searchTree_held hns ht hap hfull hd, LeafItem.kv_fst, lookup_eq it.k h _ hord hfull]
  change found it.k ((items h t).find? _) = _
  rw [hfind]
  rfl

/-- **The extent tree describes itself.** When the builder succeeds there is a tree on the device,
    the one its ROOT_ITEM is pointed at, that describes the given records, its own nodes and the
    block groups. -/
theorem buildMultiLevelExtentTree_selfDescribing (hok : BuilderOk sb inp v)
    (hrun : buildMultiLevelExtentTree sb inp v = .ok () v') :
    ∃ h, ∃ t : LTree h, SelfDescribing sb inp v v' t ∧
      ∃ v₁ v₂ used, repointExtentRoot sb (addr h t) h v₁ = .ok () v₂ ∧
        updateSuperBytesUsed sb used v₂ = .ok () v' := by
  obtain ⟨hicap, lay, sm₁, v₂, v₃, hsize, hwrite, hroot, hsuper⟩ := buildMultiLevelExtentTree_inv hrun
  obtain ⟨hvol, hfree, hdev⟩ := hok.start
  have hns := hvol.spaced.pos
  obtain ⟨n, sm₀, hn, hs, hsame, hlay⟩ := sizeExtentTree_ok 64 1 Nat.one_pos hvol.spaced hsize
  have hdesc : Describable sb inp sm₀.free := by
    rw [hsame, hfree]
    exact hok.describable
  have hkeys := hlay.recs_sorted hs hdesc
  obtain ⟨plan, h, t, rfl, htree⟩ := writeMultiLevelTree_ok hicap hn hlay hkeys hwrite
  obtain ⟨hplaced, hleft, hdepth⟩ :=
    htree.placed hvol (by rw [hfree]; exact hok.offsets) hs hsame hlay hicap
  rw [hfree] at hplaced hleft
  -- the tree is on the device once its blocks are written
  have hheld : Held sb (writeAll sb v.dev plan) h t := by
    have hfst : (plan.map Prod.fst).Perm (nodeAddrs h t) := by
      rw [← fst_nodes]
      exact (htree.nodes_perm.map _).symm
    refine held_of_nodes h t fun p hp => ?_
    have hmem : p.1 ∈ nodeAddrs h t := fst_nodes h t ▸ List.mem_map_of_mem hp
    refine ⟨hplaced.addr_ne _ hmem, readNode_writeAll hns plan v.dev ?_ ?_ p
      (htree.nodes_perm.mem_iff.mp hp)⟩
    · have hpw := (hfst.pairwise_iff fun hd => hd.symm).mpr hplaced.apart
      rw [List.pairwise_map] at hpw
      exact hpw
    · exact fun q hq => hplaced.mapped q.1 (hfst.mem_iff.mp (List.mem_map_of_mem hq))
  -- so is the ROOT_TREE, and the leaf of it that is rewritten keeps clear of the new tree
  obtain ⟨leafLog, n', hleaf, rfl⟩ := repointExtentRoot_inv hroot
  obtain ⟨s, rfl⟩ := updateSuperBytesUsed_inv hsuper
  obtain ⟨hr, R, hRroot, hR, hRap, hRfull, hRroom, hRplace⟩ := hok.root
  have hplan : ∀ p ∈ plan, blk sb p.1 ⊆ room sb inp v := by
    intro p hp
    have hmem : p.1 ∈ nodeAddrs h t :=
      fst_nodes h t ▸ List.mem_map_of_mem (htree.nodes_perm.mem_iff.mpr hp)
    exact fun b hb => hplaced.inside ((mem_foot_iff h t b).mpr ⟨p.1, hmem, hb⟩)
  have hRheld : Held sb (writeAll sb v.dev plan) hr R := by
    refine Held.frame (fun a ha => ?_) hr R hRroom hR
    exact writeAll_frame plan v.dev fun p hp => (ha.mono_right (hplan p hp)).symm
  simp only [hdev] at hleaf
  have hleafmem := rootItemLeafLogAddr_mem hns hRheld hRap hRfull hRroot hleaf
  have hheld₂ : Held sb (writeNodeAtPhys sb (writeAll sb v.dev plan) leafLog n') h t := by
    refine Held.frame (fun a ha => ?_) h t ((hRplace leafLog hleafmem).symm.mono_left hplaced.inside)
      hheld
    exact readNode_cons_of_disjoint ha.symm
  have hheld₃ : Held sb (⟨superblockOffset, sbfSize, .super s⟩ ::
      writeNodeAtPhys sb (writeAll sb v.dev plan) leafLog n') h t := by
    refine Held.frame (fun a ha => ?_) h t (hok.super.symm.mono_left hplaced.inside) hheld₂
    exact readNode_cons_of_disjoint ha.symm
  have hap : Apart sb h t := apart_of_nodeAddrs h t hplaced.apart
  rw [← htree.root, ← htree.height] at hroot
  refine ⟨h, t, ⟨?_, ?_, htree.records hok hlay, ?_, htree.fans, hplaced.distinct, hap, hleft⟩,
    _, _, _, hroot, hsuper⟩
  · rw [hdev]
    exact hheld₃
  · rw [htree.contents_eq]
    exact hkeys
  · intro r hr'
    rw [hdev]
    exact searchTree_contents hns hheld₃ hap htree.full htree.ordered hdepth hr'

/-! ## 7. Two volumes -/

/-- A volume of 401-byte nodes with one chunk and a ROOT_TREE of one leaf. -/
def oneChunkSb (physStart root : Nat) : Superblock where
  nodeSize := 401
  sectorSize := 401
  totalBytes := 200000
  rootLogAddr := root
  chunkLogAddr := 0
  generation := 1
  sysChunks := [⟨100000, 7619, physStart, 0⟩]

/-- The ROOT_TREE's leaf: the EXTENT_TREE's ROOT_ITEM, up to its level. -/
def oneChunkRoot (root : Nat) : LeafBlk :=
  ⟨root, ⟨root, 1⟩, [⟨⟨extentTreeObjID, typeRootItem, 0⟩, 61, List.replicate 239 0⟩]⟩

def oneChunkVol (sb : Superblock) (exts : List FreeExtent) : Vol :=
  ⟨[⟨sb.physFromLog sb.rootLogAddr, 401, .node (LTree.node 0 (oneChunkRoot sb.rootLogAddr))⟩,
    ⟨superblockOffset, sbfSize, .super sb⟩], ⟨exts, 401⟩⟩

/-- Chunk, ROOT_TREE leaf and old extent tree in place, the rest free. -/
def straightSb : Superblock := oneChunkSb 100000 100000

def straightVol : Vol := oneChunkVol straightSb [⟨100802, 6817⟩]

def straightInput : MultiLevelExtentInput where
  baseRecs := [(⟨100402, 0xA8, 0⟩, List.replicate 226 0), (⟨100403, 0xA8, 0⟩, List.replicate 43 0)]
  baseBGUsed := [(100000, 401)]
  bgLenFlags := straightSb.bgLenFlags
  chunkOf := straightSb.chunkOf
  oldExtRoot := 100401
  oldExtSafe := true

theorem straight_physFromLog {a : Nat} (h : 100000 ≤ a ∧ a < 107619) :
    straightSb.physFromLog a = a := by
  have hholds : ChunkMapping.holdsLog ⟨100000, 7619, 100000, 0⟩ a = true := by
    simp only [ChunkMapping.holdsLog, decide_eq_true_eq]
    omega
  simp only [Superblock.physFromLog, straightSb, oneChunkSb, List.find?_cons, hholds]
  omega

theorem straight_usable {p : Nat} (h : 100000 ≤ p ∧ p < 107619) : p ∈ usable straightSb := by
  have hholds : ChunkMapping.holdsPhys ⟨100000, 7619, 100000, 0⟩ p = true := by
    simp only [ChunkMapping.holdsPhys, decide_eq_true_eq]
    omega
  refine ⟨⟨_, List.mem_cons_self, hholds⟩, ?_⟩
  simp only [Superblock.physToLog, straightSb, oneChunkSb, List.find?_cons, hholds]
  omega

theorem mem_straight_free {p : Nat} : p ∈ straightVol.sm.free ↔ 100802 ≤ p ∧ p < 107619 := by
  simp [SpaceManager.free, straightVol, oneChunkVol, Span.mem_bytes]

theorem mem_straight_blk {a p : Nat} (h : 100000 ≤ a ∧ a < 107619) :
    p ∈ blk straightSb a ↔ a ≤ p ∧ p < a + 401 := by
  rw [blk, straight_physFromLog h]
  rfl

theorem straight_oldBlocks : oldBlocks straightSb straightInput straightVol = [100401] := by
  decide +kernel

theorem mem_straight_room {p : Nat} (h : p ∈ room straightSb straightInput straightVol) :
    100401 ≤ p ∧ p < 107619 := by
  rw [room, straight_oldBlocks] at h
  rcases h with h | ⟨a, ha, h⟩
  · rw [mem_straight_free] at h
    omega
  · obtain rfl := List.mem_singleton.mp ha
    rw [mem_straight_blk (by omega)] at h
    omega

theorem straight_builderOk : BuilderOk straightSb straightInput straightVol where
  vol := by
    refine ⟨by decide, rfl, List.pairwise_singleton _ _, List.pairwise_singleton _ _, fun p hp => ?_⟩
    rw [mem_straight_free] at hp
    exact straight_usable (by omega)
  starts := by decide
  groups := rfl
  chunkOf := rfl
  old := by
    rw [straight_oldBlocks]
    refine ⟨List.pairwise_singleton _ _, fun a ha => ?_, fun a ha p hp => ?_⟩
    · obtain rfl := List.mem_singleton.mp ha
      rw [Set.disjoint_left]
      intro p hp hfree
      rw [mem_straight_blk (by omega)] at hp
      rw [mem_straight_free] at hfree
      omega
    · obtain rfl := List.mem_singleton.mp ha
      rw [mem_straight_blk (by omega)] at hp
      exact straight_usable (by omega)
  keys := by decide +kernel
  noGroups := by decide +kernel
  records := by
    have hdata : ∀ r ∈ straightInput.baseRecs, r.1.typ ≠ typeMetadataItem := by decide +kernel
    exact fun r hr htyp => absurd htyp (hdata r hr)
  offsets := by
    intro p hp
    have := mem_straight_room hp
    omega
  super := by
    rw [Set.disjoint_left]
    intro p hp hroom
    have := mem_straight_room hroom
    simp only [Span.mem_bytes, superblockOffset, sbfSize] at hp
    omega
  root := by
    refine ⟨0, oneChunkRoot 100000, rfl, ?_, trivial, trivial, ?_, ?_⟩
    · change readNode straightSb straightVol.dev 100000 = .ok _
      decide +kernel
    · rw [Set.disjoint_left]
      intro p hp hroom
      have hroom := mem_straight_room hroom
      have hp := (mem_straight_blk (by decide)).mp hp
      change 100000 ≤ p ∧ p < 100000 + 401 at hp
      omega
    · intro a ha
      obtain rfl := List.mem_singleton.mp ha
      rw [Set.disjoint_left]
      intro p hp hroom
      have hroom := mem_straight_room hroom
      change 100000 ≤ p ∧ p < 100000 + 401 at hp
      omega

/-- Two leaves under one node. -/
theorem buildMultiLevelExtentTree_straight :
    succeeded (buildMultiLevelExtentTree straightSb straightInput straightVol) = true ∧
    ∃ v', buildMultiLevelExtentTree straightSb straightInput straightVol = .ok () v' ∧
      ∃ h, ∃ t : LTree h, SelfDescribing straightSb straightInput straightVol v' t ∧
        ∃ v₁ v₂ used, repointExtentRoot straightSb (addr h t) h v₁ = .ok () v₂ ∧
          updateSuperBytesUsed straightSb used v₂ = .ok () v' := by
  have h : succeeded (buildMultiLevelExtentTree straightSb straightInput straightVol) = true := by
    decide +kernel
  exact ⟨h, _, eq_ok_unit h,
    buildMultiLevelExtentTree_selfDescribing straight_builderOk (eq_ok_unit h)⟩

/-- The chunk lies one node higher on the device than in the logical space. -/
def skewSb : Superblock := oneChunkSb 100401 100401

def skewVol : Vol := oneChunkVol skewSb [⟨100401, 401⟩, ⟨101203, 6817⟩]

/-- The ROOT_TREE's leaf is described. -/
def skewInput : MultiLevelExtentInput where
  baseRecs := [(⟨100401, typeMetadataItem, 0⟩, buildMetadataItemBytes 1)]
  baseBGUsed := [(100000, 401)]
  bgLenFlags := skewSb.bgLenFlags
  chunkOf := skewSb.chunkOf
  oldExtRoot := 0
  oldExtSafe := false

-- The ROOT_TREE's leaf, at logical 100401, is written back to device offset 100401: over the new
-- leaf, whose logical address is 100000.
theorem buildMultiLevelExtentTree_skew :
    2 ≤ internalCapacity skewSb ∧
    skewVol.sm.freeExts.Pairwise (fun a b => a.start + a.size ≤ b.start) ∧
    (∀ e ∈ skewVol.sm.freeExts, e.start + e.size ≤ skewSb.physFromLog 100401 ∨
      skewSb.physFromLog 100401 + skewSb.nodeSize ≤ e.start) ∧
    (∃ lay sm, sizeExtentTree skewSb skewInput 64 1 skewVol.sm = .ok lay sm ∧
      interiorRootLog lay = 100000 ∧ ⟨100000, typeMetadataItem, 0⟩ ∈ lay.recs.map Prod.fst) ∧
    succeeded (buildMultiLevelExtentTree skewSb skewInput skewVol) = true ∧
    (searchTree skewSb (outcome () (buildMultiLevelExtentTree skewSb skewInput skewVol)).2.dev
      100000 ⟨100000, typeMetadataItem, 0⟩).toOption = none := by
  have hsize : succeeded (sizeExtentTree skewSb skewInput 64 1 skewVol.sm) = true ∧
      let lay := (outcome ⟨[], [], [], [], [], []⟩ (sizeExtentTree skewSb skewInput 64 1 skewVol.sm)).1
      interiorRootLog lay = 100000 ∧ ⟨100000, typeMetadataItem, 0⟩ ∈ lay.recs.map Prod.fst := by
    decide +kernel
  have hbuild : succeeded (buildMultiLevelExtentTree skewSb skewInput skewVol) = true ∧
      (searchTree skewSb (outcome () (buildMultiLevelExtentTree skewSb skewInput skewVol)).2.dev
        100000 ⟨100000, typeMetadataItem, 0⟩).toOption = none := by
    decide +kernel
  exact ⟨by decide, by decide, by decide +kernel, 
    ⟨_, _, eq_ok_of_succeeded ⟨[], [], [], [], [], []⟩ hsize.1, hsize.2⟩, hbuild⟩

end Btrfs
