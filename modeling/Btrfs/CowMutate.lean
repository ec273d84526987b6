/-
  Btrfs/CowMutate.lean
  ====================
  **`cowMutate` as a whole** — the climb, the release of the old path, and the merge of
  the last two leaves.

  Once the old path is back on the free list there is room for one more node, so the
  merge of `tryCollapseTwoLeafRoot` happens exactly when the two leaves fit in one.  The
  shape of the result is therefore a function of the shape before (`settle`).
-/
import Btrfs.CowSpec
import Btrfs.LeafSpec

namespace Btrfs

open Lib LTree

variable {sb : Superblock} {v v' v₁ : Vol} {k : Key}

/-- From `v` to `v'`, only bytes that were free or in `S` were written or became free. -/
structure Moved (sb : Superblock) (v v' : Vol) (S : Set Nat) : Prop where
  free_subset : v'.sm.free ⊆ v.sm.free ∪ S
  frame : ∀ a, Disjoint (blk sb a) (v.sm.free ∪ S) → readNode sb v'.dev a = readNode sb v.dev a

/-! ## 1. Releasing the old path -/

/-- Each released node leaves room for one more. -/
theorem freeNodes_blocks : ∀ (addrs : List Nat) (v : Vol), 0 < sb.nodeSize →
    v.sm.nodeSize = sb.nodeSize → v.sm.blocks + addrs.length ≤ (freeNodes sb v addrs).sm.blocks := by
  intro addrs
  induction addrs with
  | nil => intro v _ _; exact le_rfl
  | cons a addrs ih =>
    intro v hpos hns
    have hrest := ih (freeNode sb v a) hpos (by simp [freeNode, hns])
    have hone : v.sm.blocks + sb.nodeSize / v.sm.nodeSize ≤ (freeNode sb v a).sm.blocks :=
      SpaceManager.blocks_freeRange _ _
    rw [hns, Nat.div_self hpos] at hone
    change _ ≤ (freeNodes sb (freeNode sb v a) addrs).sm.blocks
    rw [List.length_cons]
    omega

/-- A new tree clear of the old path survives the release of the path. -/
theorem release {h m : Nat} {t : LTree h} {t' : LTree m} (ht : TreeOk sb v t)
    (hg : Grew sb v v₁) (hp : Planted sb v₁ m t')
    (hsub : foot sb m t' ⊆ (foot sb h t \ pathFoot sb k h t) ∪ v.sm.free) :
    OnVol sb (freeNodes sb v₁ (trace k h t).oldNodes) t' ∧
    v₁.sm.blocks + (h + 1) ≤ (freeNodes sb v₁ (trace k h t).oldNodes).sm.blocks ∧
    Moved sb v (freeNodes sb v₁ (trace k h t).oldNodes) (foot sb h t) := by
  obtain ⟨hpw, hset⟩ := oldNodes_spec k h t ht.apart ht.full
  have hpath : pathFoot sb k h t ⊆ foot sb h t := pathFoot_subset k h t
  -- every released block is part of the old tree
  have hblk : ∀ a ∈ (trace k h t).oldNodes, blk sb a ⊆ foot sb h t := by
    intro a ha p hpa
    apply hpath
    rw [← hset]
    exact ⟨a, ha, hpa⟩
  have hpre : ∀ a ∈ (trace k h t).oldNodes,
      Disjoint (blk sb a) v₁.sm.free ∧ blk sb a ⊆ usable sb := by
    intro a ha
    exact ⟨ht.live.mono (hblk a ha) hg.free_subset, (hblk a ha).trans ht.usable⟩
  obtain ⟨hok, hdev, hfree⟩ := freeNodes_ok _ v₁ hg.ok hpw hpre
  rw [hset] at hfree
  have hpos : 0 < sb.nodeSize := lt_of_lt_of_le (by decide) ht.vol.nodeSize_ge
  have hroom := freeNodes_blocks (trace k h t).oldNodes v₁ hpos hg.ok.sm_nodeSize
  have hlen : (trace k h t).oldNodes.length = h + 1 := by
    simp [Trace.oldNodes, trace_inner_length k h t ht.full]
  rw [hlen] at hroom
  refine ⟨⟨hok, ?_, hp.apart, ?_, ?_⟩, hroom, ⟨?_, ?_⟩⟩
  · rw [hdev]; exact hp.held
  · rw [hfree, Set.disjoint_union_right]
    refine ⟨hp.live, ?_⟩
    refine Disjoint.mono_left hsub ?_
    rw [Set.disjoint_union_left]
    exact ⟨Set.disjoint_sdiff_left, (ht.live.mono_left hpath).symm⟩
  · refine hsub.trans (Set.union_subset ?_ ht.vol.free_usable)
    exact Set.sdiff_subset.trans ht.usable
  · rw [hfree]
    exact Set.union_subset_union hg.free_subset hpath
  · intro a ha
    rw [hdev]
    exact hg.frame a (ha.mono_right Set.subset_union_left)

/-! ## 2. Merging the last two leaves -/

/-- The merged leaf, when the tree is a root over exactly two leaves whose items fit in one. -/
def mergeTwoLeaves (ns : Nat) : (h : Nat) → STree Key LeafItem h → Option (List LeafItem)
  | 1, (kids : List (Key × List LeafItem)) =>
    match kids with
    | [(_, l), (_, r)] =>
      if ns < nodeHdrSize + packedSize ((l ++ r).map LeafItem.kv) then none
      else some (packFrom ns ((l ++ r).map LeafItem.kv))
    | _ => none
  | _, _ => none

/-- The tree after the attempt to merge. -/
def merged (ns : Nat) (t : STree.Any Key LeafItem) : STree.Any Key LeafItem :=
  match mergeTwoLeaves ns t.1 t.2 with
  | some items => ⟨0, items⟩
  | none => t

theorem writeCowNode_isOk (sb : Superblock) (hroom : 0 < v.sm.blocks) (n : Node) :
    ∃ a v', writeCowNode sb n v = .ok a v' := by
  obtain ⟨⟨p, sm⟩, hal⟩ := SpaceManager.allocNodeBlock_isOk hroom
  exact ⟨_, _, by rw [writeCowNode, hal]⟩

/-- A tree the merge leaves alone. -/
theorem tryCollapse_same {h : Nat} {t : LTree h} (ht : OnVol sb v t)
    (hrun : tryCollapseTwoLeafRoot sb (addr h t) v = .ok (addr h t) v)
    (hm : mergeTwoLeaves sb.nodeSize h (shape h t) = none) :
    ∃ r v' m, ∃ t' : LTree m, tryCollapseTwoLeafRoot sb (addr h t) v = .ok r v' ∧
      addr m t' = r ∧ OnVol sb v' t' ∧
      (⟨m, shape m t'⟩ : STree.Any Key LeafItem) = merged sb.nodeSize ⟨h, shape h t⟩ ∧
      Moved sb v v' (foot sb h t) := by
  refine ⟨_, _, h, t, hrun, rfl, ht, by rw [merged, hm], ?_, ?_⟩
  · exact Set.subset_union_left
  · intro a _
    rfl

/-- With room for one node, the merge happens exactly when the two leaves fit in one. -/
theorem tryCollapse_spec {h : Nat} {t : LTree h} (ht : OnVol sb v t) (hroom : 0 < v.sm.blocks) :
    ∃ r v' m, ∃ t' : LTree m, tryCollapseTwoLeafRoot sb (addr h t) v = .ok r v' ∧
      addr m t' = r ∧ OnVol sb v' t' ∧
      (⟨m, shape m t'⟩ : STree.Any Key LeafItem) = merged sb.nodeSize ⟨h, shape h t⟩ ∧
      Moved sb v v' (foot sb h t) := by
  have hread := held_root ht.held
  match h, t, ht with
  | 0, t, ht =>
    apply tryCollapse_same ht
    · rw [tryCollapseTwoLeafRoot, hread]; rfl
    · rfl
  | h + 2, t, ht =>
    apply tryCollapse_same ht
    · rw [tryCollapseTwoLeafRoot, hread]; rfl
    · rfl
  | 1, (b : NodeBlk LeafBlk), ht =>
    have hshape : shape 1 b = b.kids.map fun c => (c.sep, c.sub.items) := rfl
    have hnode : node 1 b = .internal b.hdr 0 (b.kids.map (ptr 0)) := rfl
    rw [hnode] at hread
    match hk : b.kids with
    | [] =>
      apply tryCollapse_same ht
      · rw [tryCollapseTwoLeafRoot, hread, hk]; rfl
      · rw [hshape, hk]; rfl
    | [x] =>
      apply tryCollapse_same ht
      · rw [tryCollapseTwoLeafRoot, hread, hk]; rfl
      · rw [hshape, hk]; rfl
    | x :: y :: z :: rest =>
      apply tryCollapse_same ht
      · rw [tryCollapseTwoLeafRoot, hread, hk]; rfl
      · rw [hshape, hk]; rfl
    | [x, y] =>
      have hxk : x ∈ b.kids := by rw [hk]; simp
      have hyk : y ∈ b.kids := by rw [hk]; simp
      have hx : readNode sb v.dev x.sub.addr = .ok (.leaf x.sub.hdr x.sub.items) :=
        (ht.held.2 x hxk).2
      have hy : readNode sb v.dev y.sub.addr = .ok (.leaf y.sub.hdr y.sub.items) :=
        (ht.held.2 y hyk).2
      have hptr : b.kids.map (ptr 0) = [⟨x.sep, x.sub.addr, x.gen⟩, ⟨y.sep, y.sub.addr, y.gen⟩] := by
        rw [hk]; rfl
      have hsize : nodeHdrSize + ((x.sub.items ++ y.sub.items).map LeafItem.kv).length * itemSize +
          (((x.sub.items ++ y.sub.items).map LeafItem.kv).map fun s => s.2.length).sum =
          nodeHdrSize + packedSize ((x.sub.items ++ y.sub.items).map LeafItem.kv) := by
        rw [packedSize]; omega
      by_cases hbig : sb.nodeSize <
          nodeHdrSize + packedSize ((x.sub.items ++ y.sub.items).map LeafItem.kv)
      · apply tryCollapse_same ht
        · rw [tryCollapseTwoLeafRoot, hread, hptr]
          simp only [hx, hy, hsize, hbig, ↓reduceIte]
        · rw [hshape, hk]
          simp only [List.map_cons, List.map_nil, mergeTwoLeaves, hbig, ↓reduceIte]
      · -- the merged leaf goes to a fresh block, and the three old ones are released
        have hbuild := buildLeafFromItems_fits (not_lt.mp hbig)
        obtain ⟨a, v₁, hw⟩ := writeCowNode_isOk sb hroom
          (.leaf x.sub.hdr (packFrom sb.nodeSize ((x.sub.items ++ y.sub.items).map LeafItem.kv)))
        have hwrote := writeCowNode_ok ht.vol hw
        have hleaf := hwrote.plant_leaf
        have hpw : [b.addr, x.sub.addr, y.sub.addr].Pairwise
            fun a b => Disjoint (blk sb a) (blk sb b) := by
          have hxy := ht.apart.1
          rw [hk] at hxy
          have hfeet := List.pairwise_pair.mp hxy
          have hxy : Disjoint (blk sb x.sub.addr) (blk sb y.sub.addr) := hfeet
          refine List.pairwise_cons.mpr ⟨?_, List.pairwise_pair.mpr hxy⟩
          intro c hc
          rcases List.mem_cons.mp hc with rfl | hc
          · exact (ht.apart.2 x hxk).1
          · rw [List.mem_singleton] at hc
            subst hc
            exact (ht.apart.2 y hyk).1
        have hfoot : ∀ c ∈ [b.addr, x.sub.addr, y.sub.addr], blk sb c ⊆ foot sb 1 b := by
          intro c hc
          simp only [List.mem_cons, List.not_mem_nil, or_false] at hc
          rcases hc with rfl | rfl | rfl
          · exact blk_subset_foot 1 b
          · exact kid_foot_subset (h := 0) hxk
          · exact kid_foot_subset (h := 0) hyk
        have hpre : ∀ c ∈ [b.addr, x.sub.addr, y.sub.addr],
            Disjoint (blk sb c) v₁.sm.free ∧ blk sb c ⊆ usable sb := by
          intro c hc
          exact ⟨ht.live.mono (hfoot c hc) hwrote.grew.free_subset, (hfoot c hc).trans ht.usable⟩
        obtain ⟨hok, hdev, hfree⟩ := freeNodes_ok _ v₁ hwrote.ok hpw hpre
        have hreleased : {p | ∃ c ∈ [b.addr, x.sub.addr, y.sub.addr], p ∈ blk sb c} ⊆ foot sb 1 b := by
          rintro p ⟨c, hc, hp⟩
          exact hfoot c hc hp
        refine ⟨a, freeNodes sb v₁ [b.addr, x.sub.addr, y.sub.addr], 0,
          (⟨a, ⟨a, sb.generation + 1⟩,
            packFrom sb.nodeSize ((x.sub.items ++ y.sub.items).map LeafItem.kv)⟩ : LeafBlk),
          ?_, rfl, ⟨hok, ?_, trivial, ?_, ?_⟩, ?_, ?_, ?_⟩
        · rw [tryCollapseTwoLeafRoot, hread, hptr]
          simp only [hx, hy, hsize, hbig, ↓reduceIte, hbuild, hw]
          rfl
        · rw [hdev]; exact hleaf.held
        · rw [hfree, Set.disjoint_union_right]
          refine ⟨hleaf.live, ?_⟩
          exact (ht.live.mono_right hwrote.was_free).symm.mono_right hreleased
        · exact hwrote.was_free.trans ht.vol.free_usable
        · rw [merged, hshape, hk]
          simp only [List.map_cons, List.map_nil, mergeTwoLeaves, hbig, ↓reduceIte]
          rfl
        · rw [hfree]
          exact Set.union_subset_union hwrote.grew.free_subset hreleased
        · intro c hc
          rw [hdev]
          exact hwrote.grew.frame c (hc.mono_right Set.subset_union_left)

/-! ## 3. The whole mutation -/

/-- The last step of `cowMutate`, once the old path is released. -/
def cowFinish (sb : Superblock) (leafHdr : NodeHdr) : Climbed → VolM Nat
  | .collapsed log => return log
  | .gone =>
    wrapErr (.wrap "btrfs cow: write replacement empty leaf: %w" [])
      (writeCowNode sb (.leaf leafHdr []))
  | .child log => tryCollapseTwoLeafRoot sb log

/-- The shape after a mutation that leaves `new` in the routed leaf. -/
def settle (ns : Nat) (k : Key) (new : List LeafItem) (h : Nat) (t : STree Key LeafItem h) :
    STree.Any Key LeafItem :=
  if STree.givesWay k new h t then STree.mutate k new h t
  else merged ns (STree.mutate k new h t)

/-- A located tree on the volume, at address `r`, of shape `s`. -/
def Stands (sb : Superblock) (v : Vol) (r : Nat) (s : STree.Any Key LeafItem) : Prop :=
  ∃ t : LTree s.1, addr s.1 t = r ∧ OnVol sb v t ∧ shape s.1 t = s.2

theorem Stands.intro {m r : Nat} {s : STree.Any Key LeafItem} (t : LTree m) (hr : addr m t = r)
    (ht : OnVol sb v t) (hs : (⟨m, shape m t⟩ : STree.Any Key LeafItem) = s) : Stands sb v r s := by
  subst hs
  exact ⟨t, hr, ht, rfl⟩

theorem Stands.elim {r : Nat} {s : STree.Any Key LeafItem} (hs : Stands sb v r s) :
    ∃ h, ∃ t : LTree h, addr h t = r ∧ OnVol sb v t ∧ s = ⟨h, shape h t⟩ := by
  obtain ⟨t, hr, ht, hshape⟩ := hs
  refine ⟨s.1, t, hr, ht, ?_⟩
  rw [hshape]

theorem Moved.trans {v₂ : Vol} {S T : Set Nat} (h : Moved sb v v₁ S) (h' : Moved sb v₁ v₂ T)
    (hT : T ⊆ v.sm.free ∪ S) : Moved sb v v₂ S := by
  have hsub : v₁.sm.free ∪ T ⊆ v.sm.free ∪ S := Set.union_subset h.free_subset hT
  refine ⟨h'.free_subset.trans hsub, ?_⟩
  intro a ha
  rw [h'.frame a (ha.mono_right hsub), h.frame a ha]

/-- The end of `cowMutate`: the old path is released, and the last two leaves are merged if the
    root did not give way. -/
theorem finish {h m r : Nat} {t : LTree h} {t' : LTree m} (ht : TreeOk sb v t)
    (hg : Grew sb v v₁) (hp : Planted sb v₁ m t')
    (hsub : foot sb m t' ⊆ (foot sb h t \ pathFoot sb k h t) ∪ v.sm.free)
    (hrun : tryCollapseTwoLeafRoot sb (addr m t') (freeNodes sb v₁ (trace k h t).oldNodes) =
      .ok r v') :
    Stands sb v' r (merged sb.nodeSize ⟨m, shape m t'⟩) ∧ Moved sb v v' (foot sb h t) := by
  obtain ⟨hon, hroom, hmoved⟩ := release ht hg hp hsub
  obtain ⟨r', v₂, n, t₂, hrun', hr, hon', hshape, hmoved'⟩ := tryCollapse_spec hon (by omega)
  rw [hrun] at hrun'
  simp only [EStateM.Result.ok.injEq] at hrun'
  obtain ⟨rfl, rfl⟩ := hrun'
  refine ⟨Stands.intro t₂ hr hon' hshape, hmoved.trans hmoved' ?_⟩
  refine hsub.trans (Set.union_subset ?_ Set.subset_union_left)
  exact Set.sdiff_subset.trans Set.subset_union_right

/-- **`cowMutate` refines the edit of the search tree.** -/
theorem cowMutate_spec {h r : Nat} {t : LTree h}
    {fn : List LeafItem → Except Err (List LeafItem)} (ht : TreeOk sb v t)
    (hrun : cowMutate sb (addr h t) k fn v = .ok r v') :
    h ≤ maxBtreeDepth ∧ ∃ new, fn (STree.leafAt k h (shape h t)) = .ok new ∧
      Stands sb v' r (settle sb.nodeSize k new h (shape h t)) ∧ Moved sb v v' (foot sb h t) := by
  have hns : 0 < sb.nodeSize := lt_of_lt_of_le (by decide) ht.vol.nodeSize_ge
  rw [cowMutate, run_bind] at hrun
  obtain ⟨v₀, v₁, hget, hrun⟩ := hrun
  obtain ⟨rfl, rfl⟩ := run_get.mp hget
  rw [run_bind] at hrun
  obtain ⟨path, v₂, htr, hrun⟩ := hrun
  rw [run_fromExcept] at htr
  obtain ⟨htr, rfl⟩ := htr
  rw [tracePath_held hns ht.held ht.apart ht.full] at htr
  split_ifs at htr with hdepth
  obtain rfl : trace k h t = path := by simpa using htr
  rw [run_bind] at hrun
  obtain ⟨new, v₃, hfn, hrun⟩ := hrun
  rw [run_fromExcept] at hfn
  obtain ⟨hfn, rfl⟩ := hfn
  rw [trace_items k h t ht.full] at hfn
  refine ⟨hdepth, new, hfn, ?_⟩
  rw [run_bind] at hrun
  obtain ⟨start, v₂, hstart, hrun⟩ := hrun
  rw [run_bind] at hrun
  obtain ⟨top, v₃, hclimb, hrun⟩ := hrun
  rw [run_bind] at hrun
  obtain ⟨u, v₄, hfreed, hrun⟩ := hrun
  rw [run_modify] at hfreed
  subst hfreed
  cases h with
  | zero =>
    -- a tree of one leaf: the leaf is rewritten even when it is empty
    have hinner : (trace k 0 t).inner = [] := rfl
    simp only [cowLeaf, hinner, List.isEmpty_nil, Bool.not_true, Bool.and_false,
      Bool.false_eq_true, ↓reduceIte, run_bind] at hstart
    obtain ⟨a, v₅, hw, hstart⟩ := hstart
    simp only [run_pure] at hstart
    obtain ⟨rfl, rfl⟩ := hstart
    simp only [hinner, cowClimb, run_pure] at hclimb
    obtain ⟨rfl, rfl⟩ := hclimb
    have hw := writeCowNode_ok ht.vol (run_wrapErr.mp hw)
    have hsub : foot sb 0 (⟨a, ⟨a, sb.generation + 1⟩, new⟩ : LeafBlk) ⊆
        (foot sb 0 t \ pathFoot sb k 0 t) ∪ v.sm.free :=
      hw.was_free.trans Set.subset_union_right
    exact finish ht hw.grew hw.plant_leaf hsub hrun
  | succ h =>
    have hinner : (trace k (h + 1) t).inner.isEmpty = false := by
      have hlen := trace_inner_length k (h + 1) t ht.full
      rw [List.isEmpty_eq_false_iff]
      intro hnil
      rw [hnil] at hlen
      simp at hlen
    rw [cowLeaf, hinner] at hstart
    -- the state in which the climb begins
    have hbegin : Grew sb v v₂ ∧ Start sb v₂ v.sm.free new start := by
      by_cases hnew : new = []
      · simp only [hnew, List.isEmpty_nil, Bool.not_false, Bool.and_self, ↓reduceIte,
          run_pure] at hstart
        obtain ⟨rfl, rfl⟩ := hstart
        exact ⟨Grew.refl ht.vol, .gone hnew⟩
      · have hemp : new.isEmpty = false := List.isEmpty_eq_false_iff.mpr hnew
        simp only [hemp, Bool.false_and, Bool.false_eq_true, ↓reduceIte] at hstart
        rw [run_bind] at hstart
        obtain ⟨a, v₅, hw, hstart⟩ := hstart
        simp only [run_pure] at hstart
        obtain ⟨rfl, rfl⟩ := hstart
        have hw := writeCowNode_ok ht.vol (run_wrapErr.mp hw)
        exact ⟨hw.grew, .leaf ⟨a, ⟨a, sb.generation + 1⟩, new⟩ rfl hnew hw.plant_leaf hw.was_free⟩
    obtain ⟨hg, hst⟩ := hbegin
    have hsource : Source sb v₂ v.sm.free t :=
      ⟨hg.ok, hg.free_subset, ht.live, ht.held.frame hg.frame (h + 1) t ht.live, ht.apart, ht.full⟩
    obtain ⟨hg', hout⟩ := cowClimb_root hsource hst hclimb
    cases hout with
    | child t' hm hway hp hsub =>
      rw [settle, hway, hm]
      exact finish ht (hg.trans hg') hp hsub hrun
    | collapsed m t' hm hway hp hsub =>
      simp only [run_pure] at hrun
      obtain ⟨rfl, rfl⟩ := hrun
      obtain ⟨hon, -, hmoved⟩ := release ht (hg.trans hg') hp hsub
      rw [settle, hway, hm]
      exact ⟨⟨t', rfl, hon, rfl⟩, hmoved⟩

end Btrfs
