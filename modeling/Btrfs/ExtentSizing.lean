/-
  Btrfs/ExtentSizing.lean
  =======================
  **The sizing loop of the extent tree** — successive attempts do not oscillate.

  An attempt at `l` leaves allocates the same blocks as a smaller one and some more,
  because the attempt before it was returned and the free list is what it was.  Its
  records are then the smaller attempt's and some more, in the same order: a block may
  have changed its level, which is the last part of its key and decides nothing while
  no other record lies at the block's address.  Packing more records never takes fewer
  leaves, and the block count determines the leaf count it was computed from.

  All of it rests on the address map being one to one on the free list.
-/
import Btrfs.ExtentTree

namespace Btrfs

open Lib SpaceManager

variable {sb : Superblock} {inp : MultiLevelExtentInput} {sm sm' : SpaceManager}

/-! ## 1. What an attempt does -/

theorem sortRecs_perm (recs : List ItemRec) : (sortRecs recs).Perm recs := List.perm_insertionSort _ _

theorem sortRecs_sorted (recs : List ItemRec) : (sortRecs recs).Pairwise fun a b => a.1 ≤ b.1 := by
  have : Std.Total fun a b : ItemRec => a.1 ≤ b.1 := ⟨fun a b => le_total a.1 b.1⟩
  have : IsTrans ItemRec fun a b => a.1 ≤ b.1 := ⟨fun _ _ _ => le_trans⟩
  exact List.pairwise_insertionSort _ recs

theorem allocLogs_ok {wrap : Nat → Err → Err} : ∀ (n i : Nat) {sm sm' : SpaceManager}
    {logs : List Nat}, allocLogs sb wrap i n sm = .ok logs sm' →
      ∃ ps, TakesBlocks sm ps sm' ∧ ps.length = n ∧ logs = ps.map sb.physToLog := by
  intro n
  induction n with
  | zero =>
    intro i sm sm' logs h
    obtain ⟨rfl, rfl⟩ := run_pure.mp h
    exact ⟨[], .nil sm, rfl, rfl⟩
  | succ n ih =>
    intro i sm sm' logs h
    rw [allocLogs] at h
    cases hp : sm.allocNodeBlock with
    | error e => simp [hp] at h
    | ok r =>
      obtain ⟨p, sm₁⟩ := r
      simp only [hp] at h
      obtain ⟨rest, sm₂, hrest, hlogs⟩ := run_bind.mp h
      obtain ⟨rfl, rfl⟩ := run_pure.mp hlogs
      obtain ⟨ps, hps, hlen, rfl⟩ := ih (i + 1) hrest
      exact ⟨p :: ps, .cons hp hps, by simp [hlen], rfl⟩

theorem allocLevels_ok : ∀ (levels : List Nat) (lvl : Nat) {sm sm' : SpaceManager}
    {logs : List (List Nat)}, allocLevels sb lvl levels sm = .ok logs sm' →
      logs.map List.length = levels ∧
        ∃ ps, TakesBlocks sm ps sm' ∧ logs.flatten = ps.map sb.physToLog := by
  intro levels
  induction levels with
  | nil =>
    intro lvl sm sm' logs h
    obtain ⟨rfl, rfl⟩ := run_pure.mp h
    exact ⟨rfl, [], .nil sm, rfl⟩
  | cons n levels ih =>
    intro lvl sm sm' logs h
    obtain ⟨first, sm₁, hfirst, h⟩ := run_bind.mp h
    obtain ⟨rest, sm₂, hrest, hlogs⟩ := run_bind.mp h
    obtain ⟨rfl, rfl⟩ := run_pure.mp hlogs
    obtain ⟨ps, hps, hlen, rfl⟩ := allocLogs_ok n 0 hfirst
    obtain ⟨hlens, qs, hqs, hflat⟩ := ih (lvl + 1) hrest
    refine ⟨by simp [hlen, hlens], ps ++ qs, hps.append hqs, ?_⟩
    rw [List.flatten_cons, hflat, List.map_append]

/-- A candidate `lay` for `blockCount` blocks, allocated from `sm`. -/
structure LaidOut (sb : Superblock) (inp : MultiLevelExtentInput) (blockCount : Nat)
    (sm : SpaceManager) (lay : ExtentLayout) (sm' : SpaceManager) : Prop where
  nLeaves : lay.leafLogs.length = leavesFor (internalCapacity sb) blockCount blockCount
  levels : lay.levels = (interiorShape lay.leafLogs.length (internalCapacity sb)).1
  counts : lay.interiorLogs.map List.length = lay.levels
  takes : ∃ ps, TakesBlocks sm ps sm' ∧ lay.allocated = ps.map sb.physToLog
  bgUsed : lay.bgUsed = usedWith sb inp lay.allBlocks
  recs : lay.recs = sortRecs (inp.baseRecs ++ lay.allBlocks.map ownRec ++
    inp.bgLenFlags.map (blockGroupRec lay.bgUsed))
  ranges : lay.ranges = partitionLeaves lay.recs (leafCapacity sb)

theorem tryExtentLayout_ok {blockCount : Nat} {lay : ExtentLayout}
    (h : tryExtentLayout sb inp blockCount sm = .ok lay sm') : LaidOut sb inp blockCount sm lay sm' := by
  obtain ⟨leafLogs, sm₁, hleaves, h⟩ := run_bind.mp h
  obtain ⟨interiorLogs, sm₂, hlevels, h⟩ := run_bind.mp h
  obtain ⟨rfl, rfl⟩ := run_pure.mp h
  obtain ⟨ps, hps, hlen, rfl⟩ := allocLogs_ok _ 0 hleaves
  obtain ⟨hcounts, qs, hqs, hflat⟩ := allocLevels_ok _ 0 hlevels
  have hn : (ps.map sb.physToLog).length = leavesFor (internalCapacity sb) blockCount blockCount := by
    rw [List.length_map, hlen]
  refine ⟨hn, ?_, hcounts, ⟨ps ++ qs, hps.append hqs, ?_⟩, rfl, rfl, rfl⟩
  · simp only [hn]
  · rw [ExtentLayout.allocated, List.map_append, ← hflat]

theorem ExtentLayout.fst_allBlocks (lay : ExtentLayout) :
    lay.allBlocks.map Prod.fst = lay.allocated := by
  have hlevel : ∀ l : List Nat × Nat, (l.1.map (·, l.2 + 1)).map Prod.fst = l.1 := by
    intro l
    simp [Function.comp_def]
  have hleaf : (lay.leafLogs.map (·, 0)).map Prod.fst = lay.leafLogs := by simp [Function.comp_def]
  rw [allBlocks, allocated, List.map_append, hleaf, List.map_flatten, List.map_map]
  congr 2
  rw [show (List.map Prod.fst ∘ fun l : List Nat × Nat => l.1.map (·, l.2 + 1)) = Prod.fst from
    funext hlevel, List.zipIdx_map_fst]

/-- What the allocations of an attempt rely on. -/
structure Spaced (sb : Superblock) (sm : SpaceManager) : Prop where
  pos : 0 < sb.nodeSize
  nodeSize : sm.nodeSize = sb.nodeSize
  noOverlap : sm.NoOverlap
  mapped : ∀ p ∈ sm.free, sb.physFromLog (sb.physToLog p) = p

/-- The blocks an attempt takes, and where they are. -/
theorem LaidOut.blocks {blockCount : Nat} {lay : ExtentLayout} (h : Spaced sb sm)
    (hlay : LaidOut sb inp blockCount sm lay sm') :
    ∃ ps, TakesBlocks sm ps sm' ∧ lay.allocated = ps.map sb.physToLog ∧
      lay.allocated.map sb.physFromLog = ps ∧ (∀ p ∈ ps, p ∈ sm.free) ∧ lay.allocated.Nodup := by
  obtain ⟨ps, hps, hlogs⟩ := hlay.takes
  have hns : 0 < sm.nodeSize := h.nodeSize ▸ h.pos
  have htook := hps.took h.noOverlap
  have hfree : ∀ p ∈ ps, p ∈ sm.free := fun p hp =>
    htook.was_free ⟨⟨p, sm.nodeSize⟩, List.mem_map_of_mem hp, le_refl p, Nat.lt_add_of_pos_right hns⟩
  have hback : lay.allocated.map sb.physFromLog = ps := by
    rw [hlogs, List.map_map]
    exact (List.map_congr_left fun p hp => h.mapped p (hfree p hp)).trans (List.map_id ps)
  have hnd : (lay.allocated.map sb.physFromLog).Nodup := by
    rw [hback]
    exact nodup_of_scattered hns htook.apart
  exact ⟨ps, hps, hlogs, hback, hfree, hnd.of_map _⟩

theorem leavesFor_pos {icap blockCount : Nat} : ∀ n, 0 < n → 0 < leavesFor icap blockCount n := by
  intro n
  induction n with
  | zero => intro hn; exact hn
  | succ n ih =>
    intro _
    rw [leavesFor]
    split_ifs with hstop
    · exact n.succ_pos
    · rw [not_or] at hstop
      exact ih (Nat.pos_of_ne_zero hstop.2)

/-- An attempt at a tree has records to lay out: its own. -/
theorem LaidOut.ranges_pos {blockCount : Nat} {lay : ExtentLayout} (hb : 0 < blockCount)
    (hlay : LaidOut sb inp blockCount sm lay sm') : 0 < lay.ranges.length := by
  rw [hlay.ranges]
  refine length_pack_pos fun hnil => ?_
  have hlen : lay.recs.length = _ := congrArg List.length hlay.recs
  rw [hnil, (sortRecs_perm _).length_eq] at hlen
  have hleaves : lay.leafLogs.length ≤ lay.allBlocks.length := by
    rw [ExtentLayout.allBlocks, List.length_append, List.length_map]
    exact Nat.le_add_right _ _
  have hpos := hlay.nLeaves ▸ leavesFor_pos blockCount hb
  simp only [List.length_append, List.length_map, List.length_nil] at hlen
  omega

theorem freeLayout_eq_giveBack (sm : SpaceManager) (lay : ExtentLayout) :
    freeLayout sb sm lay = sm.giveBack sb.nodeSize (lay.allocated.map sb.physFromLog) := by
  rw [freeLayout, giveBack, List.foldl_map]

/-! ## 2. The leaf count of a block count -/

/-- The blocks of a tree with `l` leaves. -/
def blocksFor (sb : Superblock) (l : Nat) : Nat := l + (interiorShape l (internalCapacity sb)).2

theorem blocksFor_strictMono (hicap : 2 ≤ internalCapacity sb) : StrictMono (blocksFor sb) :=
  total_strictMono hicap

theorem blocksFor_pos {l : Nat} (hl : 0 < l) : 0 < blocksFor sb l := Nat.add_pos_left hl _

theorem leavesFor_blocksFor (hicap : 2 ≤ internalCapacity sb) {l : Nat} (hl : 0 < l) :
    leavesFor (internalCapacity sb) (blocksFor sb l) (blocksFor sb l) = l := by
  -- the scan starts at or above `l` and meets no other solution on the way down
  have hscan : ∀ n, l ≤ n → leavesFor (internalCapacity sb) (blocksFor sb l) n = l := by
    intro n
    induction n with
    | zero => intro hn; omega
    | succ n ih =>
      intro hn
      rw [leavesFor]
      split_ifs with hstop
      · rcases hstop with heq | hzero
        · exact (blocksFor_strictMono hicap).injective heq
        · omega
      · have hne : l ≠ n + 1 := fun heq => hstop (Or.inl (by rw [heq]; rfl))
        exact ih (by omega)
  exact hscan _ (Nat.le_add_right _ _)

/-! ## 3. Records of a larger attempt -/

/-- A key without its offset, for the METADATA_ITEMs at the addresses `A`. -/
def eraseLevel (A : List Nat) (k : Key) : Key :=
  if k.typ = typeMetadataItem ∧ k.objID ∈ A then { k with offset := 0 } else k

@[simp] theorem eraseLevel_objID (A : List Nat) (k : Key) : (eraseLevel A k).objID = k.objID := by
  rw [eraseLevel]; split_ifs <;> rfl

@[simp] theorem eraseLevel_typ (A : List Nat) (k : Key) : (eraseLevel A k).typ = k.typ := by
  rw [eraseLevel]; split_ifs <;> rfl

theorem eraseLevel_mono (A : List Nat) : Monotone (eraseLevel A) := by
  intro a b hab
  rw [Key.le_def] at hab
  by_cases hsame : a.objID = b.objID ∧ a.typ = b.typ
  · obtain ⟨hobj, htyp⟩ := hsame
    simp only [eraseLevel, hobj, htyp, Key.le_def]
    split_ifs <;> omega
  · simp only [Key.le_def, eraseLevel_objID, eraseLevel_typ]
    omega

/-- What the order and the packing see of a record. -/
def weigh (A : List Nat) (r : ItemRec) : Key × Nat := (eraseLevel A r.1, itemNeed r)

theorem weigh_ownRec {A : List Nat} {b : Nat × Nat} (hb : b.1 ∈ A) :
    weigh A (ownRec b) = (⟨b.1, typeMetadataItem, 0⟩, 58) := by
  have hneed : itemNeed (ownRec b) = 58 := by
    simp [itemNeed, ownRec, buildMetadataItemBytes, itemSize]
  rw [weigh, hneed, ownRec, eraseLevel, if_pos ⟨rfl, hb⟩]

theorem weigh_blockGroupRec (A : List Nat) (m : UsedMap) (g : Nat × Nat × Nat) :
    weigh A (blockGroupRec m g) = (⟨g.1, typeBlockGroupItem, g.2.1⟩, 49) := by
  have hneed : itemNeed (blockGroupRec m g) = 49 := by
    simp [itemNeed, blockGroupRec, buildBlockGroupItemBytes, itemSize]
  rw [weigh, hneed, blockGroupRec, eraseLevel, if_neg (by simp [typeBlockGroupItem, typeMetadataItem])]

/-- Records with distinct weighed keys come out of the sort in the order of those keys. -/
theorem weigh_sortRecs {A : List Nat} {recs : List ItemRec}
    (hnd : ((recs.map (weigh A)).map Prod.fst).Nodup) :
    ((sortRecs recs).map (weigh A)).Pairwise fun a b => a.1 < b.1 := by
  have hnd' : (((sortRecs recs).map (weigh A)).map Prod.fst).Nodup :=
    ((((sortRecs_perm recs).map _).map _).nodup_iff).mpr hnd
  rw [List.Nodup, List.pairwise_map, List.pairwise_map] at hnd'
  rw [List.pairwise_map]
  exact (sortRecs_sorted recs).imp₂ (fun a b hle hne => lt_of_le_of_ne (eraseLevel_mono A hle) hne) hnd'

/-- The sizes of some records, in order, are part of the sizes of more records. -/
theorem needs_sublist {A : List Nat} {recs recs' : List ItemRec}
    (hsub : (recs.map (weigh A)).Sublist (recs'.map (weigh A)))
    (hnd : ((recs'.map (weigh A)).map Prod.fst).Nodup) :
    ((sortRecs recs).map itemNeed).Sublist ((sortRecs recs').map itemNeed) := by
  have hperm : ∀ l : List ItemRec, ((sortRecs l).map (weigh A)).Perm (l.map (weigh A)) :=
    fun l => (sortRecs_perm l).map _
  have hanti : Std.Antisymm fun a b : Key × Nat => a.1 < b.1 :=
    ⟨fun _ _ hab hba => absurd hba hab.asymm⟩
  have hsorted := List.sublist_of_subperm_of_pairwise
    (((hperm recs).subperm.trans hsub.subperm).trans (hperm recs').symm.subperm)
    (weigh_sortRecs (hnd.sublist (hsub.map _))) (weigh_sortRecs hnd)
  have hneeds : ∀ l : List ItemRec, (l.map (weigh A)).map Prod.snd = l.map itemNeed := by
    intro l
    rw [List.map_map]
    rfl
  rw [← hneeds, ← hneeds]
  exact hsorted.map _

/-! ## 4. The loop -/

/-- The records to describe have distinct keys, and none of them is a block group or lies at a block
    of `room`. -/
structure Describable (sb : Superblock) (inp : MultiLevelExtentInput) (room : Set Nat) : Prop where
  keys : (inp.baseRecs.map Prod.fst).Nodup
  noGroups : ∀ r ∈ inp.baseRecs, r.1.typ ≠ typeBlockGroupItem
  apart : ∀ r ∈ inp.baseRecs, r.1.typ = typeMetadataItem →
    ∀ p ∈ room, r.1.objID ≠ sb.physToLog p
  groups : (inp.bgLenFlags.map Prod.fst).Nodup

/-- The weighed records of an attempt, for addresses `A` that hold its blocks. -/
theorem weigh_recs {A : List Nat} (blocks : List (Nat × Nat)) (m : UsedMap)
    (hA : ∀ b ∈ blocks, b.1 ∈ A) :
    (inp.baseRecs ++ blocks.map ownRec ++ inp.bgLenFlags.map (blockGroupRec m)).map (weigh A) =
      inp.baseRecs.map (weigh A) ++
        (blocks.map Prod.fst).map (fun a => ((⟨a, typeMetadataItem, 0⟩ : Key), 58)) ++
        inp.bgLenFlags.map (fun g => (⟨g.1, typeBlockGroupItem, g.2.1⟩, 49)) := by
  have hown : (blocks.map ownRec).map (weigh A) =
      (blocks.map Prod.fst).map (fun a => ((⟨a, typeMetadataItem, 0⟩ : Key), 58)) := by
    rw [List.map_map, List.map_map]
    exact List.map_congr_left fun b hb => weigh_ownRec (hA b hb)
  have hgroups : (inp.bgLenFlags.map (blockGroupRec m)).map (weigh A) =
      inp.bgLenFlags.map (fun g => (⟨g.1, typeBlockGroupItem, g.2.1⟩, 49)) := by
    rw [List.map_map]
    exact List.map_congr_left fun g _ => weigh_blockGroupRec A m g
  rw [List.map_append, List.map_append, hown, hgroups]

/-- The weighed keys of an attempt's records are distinct. -/
theorem LaidOut.nodup_weighed {blockCount : Nat} {lay : ExtentLayout} (hs : Spaced sb sm)
    (h : Describable sb inp sm.free) (hlay : LaidOut sb inp blockCount sm lay sm') :
    (((inp.baseRecs ++ lay.allBlocks.map ownRec ++
      inp.bgLenFlags.map (blockGroupRec lay.bgUsed)).map (weigh lay.allocated)).map
        Prod.fst).Nodup := by
  obtain ⟨ps, -, hlogs, -, hfree, hnd⟩ := hlay.blocks hs
  have hmem : ∀ b ∈ lay.allBlocks, b.1 ∈ lay.allocated := fun b hb =>
    lay.fst_allBlocks ▸ List.mem_map_of_mem hb
  -- no base record is at one of the blocks, so the base keys are untouched
  have hbase : (inp.baseRecs.map (weigh lay.allocated)).map Prod.fst = inp.baseRecs.map Prod.fst := by
    rw [List.map_map]
    refine List.map_congr_left fun r hr => if_neg ?_
    rintro ⟨htyp, hobj⟩
    rw [hlogs] at hobj
    obtain ⟨p, hp, heq⟩ := List.mem_map.mp hobj
    exact h.apart r hr htyp p (hfree p hp) heq.symm
  rw [weigh_recs lay.allBlocks lay.bgUsed hmem, List.map_append, List.map_append, hbase,
    lay.fst_allBlocks, List.map_map, List.map_map]
  have hown : (lay.allocated.map fun a => (⟨a, typeMetadataItem, 0⟩ : Key)).Nodup :=
    hnd.map fun a b hab => congrArg Key.objID hab
  have hgroups : (inp.bgLenFlags.map fun g => (⟨g.1, typeBlockGroupItem, g.2.1⟩ : Key)).Nodup :=
    List.Nodup.of_map Key.objID (by rw [List.map_map]; exact h.groups)
  refine List.nodup_append.mpr ⟨List.nodup_append.mpr ⟨h.keys, hown, ?_⟩, hgroups, ?_⟩
  · intro k hk k' hk' heq
    obtain ⟨r, hr, rfl⟩ := List.mem_map.mp hk
    obtain ⟨a, ha, rfl⟩ := List.mem_map.mp hk'
    rw [hlogs] at ha
    obtain ⟨p, hp, rfl⟩ := List.mem_map.mp ha
    exact h.apart r hr (congrArg Key.typ heq) p (hfree p hp) (congrArg Key.objID heq)
  · intro k hk k' hk' heq
    obtain ⟨g, -, rfl⟩ := List.mem_map.mp hk'
    rcases List.mem_append.mp hk with hk | hk
    · obtain ⟨r, hr, rfl⟩ := List.mem_map.mp hk
      exact h.noGroups r hr (congrArg Key.typ heq)
    · obtain ⟨a, -, rfl⟩ := List.mem_map.mp hk
      have htyp : typeMetadataItem = typeBlockGroupItem := congrArg Key.typ heq
      exact absurd htyp (by decide)

/-- What the loop relies on: records that can be described with the free blocks, a free list that is
    in order, and an address map that is one to one on it. -/
structure Sizable (sb : Superblock) (inp : MultiLevelExtentInput) (sm : SpaceManager) : Prop
    extends Describable sb inp sm.free where
  icap : 2 ≤ internalCapacity sb
  nodeSize : sm.nodeSize = sb.nodeSize
  tidy : Tidy sm.freeExts
  mapped : ∀ p ∈ sm.free, sb.physFromLog (sb.physToLog p) = p

namespace Sizable

variable {lay lay' : ExtentLayout} {l l' blockCount blockCount' : Nat}

theorem nodeSize_pos (h : Sizable sb inp sm) : 0 < sb.nodeSize := by
  have hicap := h.icap
  rw [internalCapacity] at hicap
  by_contra hzero
  rw [Nat.eq_zero_of_not_pos hzero] at hicap
  simp at hicap

theorem spaced (h : Sizable sb inp sm) : Spaced sb sm :=
  ⟨h.nodeSize_pos, h.nodeSize, h.tidy.scattered, h.mapped⟩

/-- Returning an attempt restores the free list. -/
theorem freeLayout_eq (h : Sizable sb inp sm) (hlay : LaidOut sb inp blockCount sm lay sm') :
    freeLayout sb sm' lay = sm := by
  obtain ⟨ps, hps, -, hback, -⟩ := hlay.blocks h.spaced
  rw [freeLayout_eq_giveBack, hback, ← h.nodeSize]
  exact hps.giveBack_eq h.tidy (h.nodeSize ▸ h.nodeSize_pos)

theorem length_leafLogs (h : Sizable sb inp sm) (hl : 0 < l)
    (hlay : LaidOut sb inp (blocksFor sb l) sm lay sm') : lay.leafLogs.length = l := by
  rw [hlay.nLeaves, leavesFor_blocksFor h.icap hl]

theorem length_allocated (h : Sizable sb inp sm) (hl : 0 < l)
    (hlay : LaidOut sb inp (blocksFor sb l) sm lay sm') : lay.allocated.length = blocksFor sb l := by
  rw [ExtentLayout.allocated, List.length_append, List.length_flatten, hlay.counts, hlay.levels,
    h.length_leafLogs hl hlay]
  rfl

/-- An attempt with more leaves needs no fewer. -/
theorem ranges_mono (h : Sizable sb inp sm) (hl : 0 < l) (hle : l ≤ l')
    {sm₁ sm₂ : SpaceManager} (hlay : LaidOut sb inp (blocksFor sb l) sm lay sm₁)
    (hlay' : LaidOut sb inp (blocksFor sb l') sm lay' sm₂) :
    lay.ranges.length ≤ lay'.ranges.length := by
  obtain ⟨ps, hps, hlogs, -⟩ := hlay.blocks h.spaced
  obtain ⟨qs, hqs, hlogs', -⟩ := hlay'.blocks h.spaced
  -- the blocks of the smaller attempt come first among those of the larger one
  have hlen : ps.length ≤ qs.length := by
    have hsmall := h.length_allocated hl hlay
    have hlarge := h.length_allocated (hl.trans_le hle) hlay'
    rw [hlogs, List.length_map] at hsmall
    rw [hlogs', List.length_map] at hlarge
    rw [hsmall, hlarge]
    exact (blocksFor_strictMono h.icap).monotone hle
  have hpre : lay.allocated.Sublist lay'.allocated := by
    rw [hlogs, hlogs']
    exact (hps.isPrefix hqs hlen).sublist.map _
  have hmem : ∀ b ∈ lay.allBlocks, b.1 ∈ lay'.allocated := fun b hb =>
    hpre.subset (lay.fst_allBlocks ▸ List.mem_map_of_mem hb)
  have hmem' : ∀ b ∈ lay'.allBlocks, b.1 ∈ lay'.allocated := fun b hb =>
    lay'.fst_allBlocks ▸ List.mem_map_of_mem hb
  rw [hlay.ranges, hlay'.ranges, partitionLeaves, partitionLeaves, hlay.recs, hlay'.recs]
  refine length_pack_le (needs_sublist (A := lay'.allocated) ?_ (hlay'.nodup_weighed h.spaced h.toDescribable))
  rw [weigh_recs _ _ hmem, weigh_recs _ _ hmem', lay.fst_allBlocks, lay'.fst_allBlocks]
  exact ((List.Sublist.refl _).append (hpre.map _)).append (List.Sublist.refl _)

end Sizable

/-- The candidates of successive turns of the loop, up to the one that is accepted, the last turn,
    or an allocation that fails. -/
def sizingLayouts (sb : Superblock) (inp : MultiLevelExtentInput) :
    Nat → Nat → SpaceManager → List ExtentLayout
  | 0, _, _ => []
  | iter + 1, blockCount, sm =>
    match tryExtentLayout sb inp blockCount sm with
    | .error _ _ => []
    | .ok lay sm' =>
      if lay.ranges.length = lay.leafLogs.length then [lay]
      else lay :: sizingLayouts sb inp iter (lay.wanted sb) (freeLayout sb sm' lay)

/-- Each candidate follows from the one before. -/
def NoFewer (lay next : ExtentLayout) : Prop :=
  lay.ranges.length ≤ next.ranges.length ∧ next.leafLogs.length = lay.ranges.length

/-- The loop from an attempt at `l` leaves that needs at least `l`: the free list is the same at each
    turn, and each turn again needs at least the leaves it assumes. -/
theorem sizingLayouts_run (h : Sizable sb inp sm) : ∀ (iter l : Nat), 0 < l →
    (∀ lay sm', LaidOut sb inp (blocksFor sb l) sm lay sm' → l ≤ lay.ranges.length) →
      (sizingLayouts sb inp iter (blocksFor sb l) sm).IsChain NoFewer ∧
      ∀ lay ∈ (sizingLayouts sb inp iter (blocksFor sb l) sm).head?,
        ∃ sm', LaidOut sb inp (blocksFor sb l) sm lay sm' := by
  intro iter
  induction iter with
  | zero => intro l _ _; exact ⟨List.IsChain.nil, nofun⟩
  | succ iter ih =>
    intro l hl hneeds
    rw [sizingLayouts]
    cases htry : tryExtentLayout sb inp (blocksFor sb l) sm with
    | error e sm₁ => exact ⟨List.IsChain.nil, nofun⟩
    | ok lay sm₁ =>
      have hlay := tryExtentLayout_ok htry
      simp only
      split_ifs
      · refine ⟨List.IsChain.singleton lay, ?_⟩
        rintro _ ⟨⟩
        exact ⟨sm₁, hlay⟩
      · have hr : 0 < lay.ranges.length := hlay.ranges_pos (blocksFor_pos hl)
        have hwanted : lay.wanted sb = blocksFor sb lay.ranges.length := rfl
        have hmore : ∀ next sm', LaidOut sb inp (blocksFor sb lay.ranges.length) sm next sm' →
            lay.ranges.length ≤ next.ranges.length :=
          fun next sm' hnext => h.ranges_mono hl (hneeds lay sm₁ hlay) hlay hnext
        obtain ⟨hchain, hhead⟩ := ih lay.ranges.length hr hmore
        rw [h.freeLayout_eq hlay, hwanted]
        constructor
        · cases hrest : sizingLayouts sb inp iter (blocksFor sb lay.ranges.length) sm with
          | nil => exact List.IsChain.singleton lay
          | cons next rest =>
            rw [hrest] at hchain hhead
            obtain ⟨sm', hlaid⟩ := hhead next rfl
            exact List.isChain_cons_cons.mpr
              ⟨⟨hmore next sm' hlaid, h.length_leafLogs hr hlaid⟩, hchain⟩
        · rintro _ ⟨⟩
          exact ⟨sm₁, hlay⟩

/-- **The loop does not oscillate.** From one turn to the next the leaf count does not fall, and each
    turn assumes the leaf count the last one came out with. -/
theorem sizingLayouts_isChain (h : Sizable sb inp sm) (iter : Nat) :
    (sizingLayouts sb inp iter 1 sm).IsChain fun lay next =>
      lay.ranges.length ≤ next.ranges.length ∧ next.leafLogs.length = lay.ranges.length := by
  have hone : blocksFor sb 1 = 1 := by
    rw [blocksFor, interiorShape, levelSizes_of_le_one le_rfl]
    rfl
  have hrun := sizingLayouts_run h iter 1 Nat.one_pos fun lay sm' hlay => hlay.ranges_pos (blocksFor_pos Nat.one_pos)
  rw [hone] at hrun
  exact hrun.1

/-! ## 5. Two address maps -/

/-- A volume of 401-byte nodes, whose leaves hold 300 bytes of items. -/
def stripSb (chunks : List ChunkMapping) : Superblock where
  nodeSize := 401
  sectorSize := 401
  totalBytes := 100000
  rootLogAddr := 0
  chunkLogAddr := 0
  generation := 1
  sysChunks := chunks

/-- Two records just above the address of the first free block. -/
def stripInput (sb : Superblock) : MultiLevelExtentInput where
  baseRecs := [(⟨10001, 0xA8, 0⟩, List.replicate 226 0), (⟨10002, 0xA8, 0⟩, List.replicate 43 0)]
  baseBGUsed := []
  bgLenFlags := sb.bgLenFlags
  chunkOf := sb.chunkOf
  oldExtRoot := 0
  oldExtSafe := false

def stripFree : SpaceManager := ⟨[⟨30000, 8020⟩], 401⟩

theorem stripFree_tidy : Tidy stripFree.freeExts := ⟨List.pairwise_singleton _ _, by decide⟩

/-- The logical range 10000..18020 once. -/
def plainSb : Superblock := stripSb [⟨10000, 8020, 30000, 0⟩]

/-- The same logical range twice: the free list lies in the second copy. -/
def doubledSb : Superblock := stripSb [⟨10000, 8020, 50000, 0⟩, ⟨10000, 8020, 30000, 0⟩]

theorem mem_stripFree {p : Nat} : p ∈ stripFree.free ↔ 30000 ≤ p ∧ p < 38020 := by
  simp [SpaceManager.free, stripFree, Span.mem_bytes]

theorem plain_volOk : VolOk plainSb ⟨[], stripFree⟩ where
  nodeSize_ge := by decide
  sm_nodeSize := rfl
  chunks_apart := List.pairwise_singleton _ _
  noOverlap := stripFree_tidy.scattered
  free_usable := by
    intro p hp
    have hp := mem_stripFree.mp hp
    have hholds : ChunkMapping.holdsPhys ⟨10000, 8020, 30000, 0⟩ p = true := by
      simp only [ChunkMapping.holdsPhys, decide_eq_true_eq]
      omega
    refine ⟨⟨_, List.mem_cons_self, hholds⟩, ?_⟩
    simp only [Superblock.physToLog, plainSb, stripSb, List.find?_cons, hholds]
    omega

theorem plain_sizable : Sizable plainSb (stripInput plainSb) stripFree where
  icap := by decide
  nodeSize := rfl
  tidy := stripFree_tidy
  mapped := fun p hp => plain_volOk.physFromLog_physToLog hp
  keys := by decide +kernel
  noGroups := by decide +kernel
  apart := by
    have hdata : ∀ r ∈ (stripInput plainSb).baseRecs, r.1.typ ≠ typeMetadataItem := by decide +kernel
    exact fun r hr htyp => absurd htyp (hdata r hr)
  groups := by decide

/-- The first attempt, of one leaf, needs three; the second has three and needs three. -/
theorem sizingLayouts_isChain_plain :
    (sizingLayouts plainSb (stripInput plainSb) 64 1 stripFree).map (fun lay => lay.ranges.length) =
      [3, 3] ∧
    (sizingLayouts plainSb (stripInput plainSb) 64 1 stripFree).IsChain fun lay next =>
      lay.ranges.length ≤ next.ranges.length ∧ next.leafLogs.length = lay.ranges.length :=
  ⟨by decide +kernel, sizingLayouts_isChain plain_sizable 64⟩

/-- Under the doubled map the first attempt's block is returned to the other copy, the second attempt
    is handed other blocks, and its records pack better: three leaves, then two. -/
theorem sizingLayouts_doubled :
    2 ≤ internalCapacity doubledSb ∧ Tidy stripFree.freeExts ∧
    (∀ r ∈ (stripInput doubledSb).baseRecs, itemNeed r ≤ leafCapacity doubledSb) ∧
    (sizingLayouts doubledSb (stripInput doubledSb) 64 1 stripFree).map
      (fun lay => lay.ranges.length) = [3, 2, 2] ∧
    ¬ (sizingLayouts doubledSb (stripInput doubledSb) 64 1 stripFree).IsChain fun lay next =>
      lay.ranges.length ≤ next.ranges.length ∧ next.leafLogs.length = lay.ranges.length := by
  refine ⟨by decide, stripFree_tidy, ?_⟩
  decide +kernel

end Btrfs
