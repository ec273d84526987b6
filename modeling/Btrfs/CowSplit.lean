/-
  Btrfs/CowSplit.lean
  ===================
  **`cowInsertSplit` refines the cut of the search tree.**

  The proof has the shape of the one for `cowMutate`: an induction on the height carries
  the new subtree, and here also the part that was cut off and still has to find a place.
-/
import Btrfs.CowMutate

namespace Btrfs

open Lib LTree

variable {sb : Superblock} {v v' : Vol} {k : Key} {F : Set Nat}

/-! ## 1. The climb -/

/-- How many key pointers an internal node holds. -/
def nodeCap (ns : Nat) : Nat := (ns - nodeHdrSize) / keyPtrSize

theorem internalCanFitOneMore_eq {ns : Nat} (hns : nodeHdrSize ≤ ns) (ptrs : List KeyPtr) :
    internalCanFitOneMore ns ptrs = decide (ptrs.length < nodeCap ns) := by
  rw [internalCanFitOneMore, nodeCap]
  apply decide_eq_decide.mpr
  rw [← Nat.succ_le_iff, Nat.le_div_iff_mul_le (by decide), Nat.succ_mul]
  omega

/-- What the split climb reaches at a subtree: a copy with the cut, and the part cut off. -/
structure SplitOutcome (sb : Superblock) (v : Vol) (F : Set Nat) (k : Key) (l r : List LeafItem)
    (s : Key) {h : Nat} (t : LTree h) (up : SplitUp) (t' : LTree h) (q : Option (Kid (LTree h))) :
    Prop where
  child_eq : up.child = addr h t'
  pending_eq : up.pending = q.map fun c => (c.sep, addr h c.sub)
  cut_eq : STree.cut (nodeCap sb.nodeSize) k l r s h (shape h t) =
    (shape h t', q.map fun c => (c.sep, shape h c.sub))
  gen_eq : ∀ c ∈ q, c.gen = sb.generation + 1
  forest : ∀ sep gen, Forest sb v h (⟨sep, gen, t'⟩ :: q.toList)
  feet_subset : ∀ sep gen, feet sb h (⟨sep, gen, t'⟩ :: q.toList) ⊆
    (foot sb h t \ pathFoot sb k h t) ∪ F

section entry

variable {h : Nat} {b : NodeBlk (LTree h)} {A B : List (Kid (LTree h))} {c q : Kid (LTree h)}

theorem insertIdx_after {α : Type} (A : List α) (a x : α) (B : List α) :
    (A ++ a :: B).insertIdx (A.length + 1) x = A ++ a :: x :: B := by
  induction A with
  | nil => rfl
  | cons y A ih => simpa using ih

/-- The key pointers of a copied node with the pending one beside its child. -/
theorem entry_insert (hl : b.kids = A ++ c :: B) (t : LTree h) (hq : q.gen = sb.generation + 1) :
    ((entry b A).setChild sb (addr h t)).insertIdx ((entry b A).childIdx + 1)
      ⟨q.sep, addr h q.sub, sb.generation + 1⟩ =
      (A ++ [⟨c.sep, sb.generation + 1, t⟩, q] ++ B).map (ptr h) := by
  have hptr : ptr h q = ⟨q.sep, addr h q.sub, sb.generation + 1⟩ := by rw [ptr, hq]
  rw [entry_setChild hl, List.map_append, List.map_cons, ← hptr]
  have hidx : (entry b A).childIdx + 1 = (A.map (ptr h)).length + 1 := by simp [entry]
  rw [hidx, insertIdx_after]
  simp

end entry

/-- Cutting a list of subtrees in two and writing a node over each half. -/
theorem Forest.plant_halves {h n : Nat} {K : List (Kid (LTree h))} {hdr : NodeHdr} {a a' : Nat}
    {v₁ v₂ : Vol} (hf : Forest sb v h K)
    (hw : Wrote sb (.internal hdr h ((K.take n).map (ptr h))) v a v₁)
    (hw' : Wrote sb (.internal hdr h ((K.drop n).map (ptr h))) v₁ a' v₂) :
    Planted sb v₂ (h + 1) (⟨a, ⟨a, sb.generation + 1⟩, K.take n⟩ : NodeBlk (LTree h)) ∧
    Planted sb v₂ (h + 1) (⟨a', ⟨a', sb.generation + 1⟩, K.drop n⟩ : NodeBlk (LTree h)) ∧
    Disjoint
      (foot sb (h + 1) (⟨a, ⟨a, sb.generation + 1⟩, K.take n⟩ : NodeBlk (LTree h)))
      (foot sb (h + 1) (⟨a', ⟨a', sb.generation + 1⟩, K.drop n⟩ : NodeBlk (LTree h))) := by
  have hsplit := hf
  rw [← List.take_append_drop n K, Forest.append_iff] at hsplit
  obtain ⟨hL, hR, hLR⟩ := hsplit
  have hleft := hL.plant hw
  have hright := (hR.grew hw.grew).plant hw'
  refine ⟨hleft.grew hw'.grew, hright, ?_⟩
  rw [foot_node (h := h) (b := ⟨a', ⟨a', sb.generation + 1⟩, K.drop n⟩),
    Set.disjoint_union_right]
  constructor
  · exact hleft.live.mono_right hw'.was_free
  · rw [foot_node, Set.disjoint_union_left]
    exact ⟨(hR.live.mono_right hw.was_free).symm, hLR⟩

theorem feet_take_subset {h n : Nat} {K : List (Kid (LTree h))} :
    feet sb h (K.take n) ⊆ feet sb h K := by
  rintro p ⟨c, hc, hp⟩
  exact ⟨c, List.mem_of_mem_take hc, hp⟩

theorem feet_drop_subset {h n : Nat} {K : List (Kid (LTree h))} :
    feet sb h (K.drop n) ⊆ feet sb h K := by
  rintro p ⟨c, hc, hp⟩
  exact ⟨c, List.mem_of_mem_drop hc, hp⟩

/-- **The split climb performs the cut.** -/
theorem cowSplitClimb_spec {l r : List LeafItem} {s : Key} {bl br : LeafBlk}
    (hbl : bl.items = l) (hbr : br.items = r) :
    ∀ (h : Nat) (t : LTree h) (v v' : Vol) (up : SplitUp),
      Source sb v F t →
      Forest sb v 0 [⟨s, 0, bl⟩, ⟨s, 0, br⟩] → feet sb 0 [⟨s, 0, bl⟩, ⟨s, 0, br⟩] ⊆ F →
      cowSplitClimb sb (trace k h t).inner ⟨bl.addr, some (s, br.addr)⟩ v = .ok up v' →
      Grew sb v v' ∧ ∃ t' q, SplitOutcome sb v' F k l r s t up t' q := by
  intro h
  induction h with
  | zero =>
    intro t v v' up hs hf hsub hrun
    simp only [trace, cowSplitClimb, run_pure] at hrun
    obtain ⟨rfl, rfl⟩ := hrun
    refine ⟨Grew.refl hs.ok, bl, some ⟨s, sb.generation + 1, br⟩, rfl, rfl, ?_, ?_, ?_, ?_⟩
    · subst hbl hbr
      rfl
    · intro c hc
      simp only [Option.mem_def, Option.some.injEq] at hc
      rw [← hc]
    · intro sep gen
      exact ⟨fun c hc => by
        simp only [Option.toList_some, List.mem_cons, List.not_mem_nil, or_false] at hc
        rcases hc with rfl | rfl
        · exact hf.planted ⟨s, 0, bl⟩ (by simp)
        · exact hf.planted ⟨s, 0, br⟩ (by simp), by simpa using hf.apart⟩
    · intro sep gen
      refine Set.Subset.trans ?_ Set.subset_union_right
      simpa using hsub
  | succ h ih =>
    intro (b : NodeBlk (LTree h)) v v' up hs hleaves hleavesF hrun
    obtain ⟨hne, hfk⟩ := shape_full_kids hs.full
    obtain ⟨A, c, B, hf⟩ := focus_isSome Kid.sep k hne
    obtain ⟨hl, -⟩ := focus_eq_some hf
    have hc : c ∈ b.kids := focus_mem hf
    rw [trace_inner_succ hf, cowSplitClimb, run_bind] at hrun
    obtain ⟨up₁, v₁, hrun₁, hrun⟩ := hrun
    obtain ⟨hg, t₁, q₁, hout⟩ := ih c.sub v v₁ up₁ (hs.kid hc) hleaves hleavesF hrun₁
    have hfs := focus_shape hf
    have hC := hout.forest c.sep (sb.generation + 1)
    have hCsub := hout.feet_subset c.sep (sb.generation + 1)
    have hcut := hout.cut_eq
    simp only [hout.child_eq, hout.pending_eq] at hrun
    cases q₁ with
    | none =>
      simp only [Option.map_none, entry_setChild hl] at hrun
      rw [run_bind] at hrun
      obtain ⟨a, v₂, hw, hrun⟩ := hrun
      simp only [run_pure] at hrun
      obtain ⟨rfl, rfl⟩ := hrun
      have hw := entry_write hg.ok hw
      simp only [Option.toList_none] at hC hCsub
      obtain ⟨hg', hp, hsub⟩ := hs.write_copy hf hg hC hCsub (by simpa using hw)
      refine ⟨hg', (⟨a, ⟨a, sb.generation + 1⟩, A ++ [⟨c.sep, sb.generation + 1, t₁⟩] ++ B⟩ :
        NodeBlk (LTree h)), none, rfl, rfl, ?_, by simp, ?_, ?_⟩
      · simp only [shape, STree.cut, hfs, hcut, Option.map_none, List.map_append, List.map_cons,
          List.append_assoc, List.singleton_append]
      · intro sep gen
        exact Forest.cons_iff.mpr ⟨hp, ⟨by simp, by simp⟩, by simp⟩
      · intro sep gen
        simpa using hsub
    | some q =>
      have hqgen : q.gen = sb.generation + 1 := hout.gen_eq q rfl
      simp only [Option.toList_some] at hC hCsub
      simp only [Option.map_some] at hrun hcut
      have hforest := hs.replaced hf hg hC hCsub
      have hlen : ((entry b A).setChild sb (addr h t₁)).length = b.kids.length := by
        rw [entry_setChild hl, hl]; simp
      have hall : ((A ++ [⟨c.sep, sb.generation + 1, t₁⟩, q] ++ B).map
          fun c => (c.sep, shape h c.sub)) =
          (A.map fun c => (c.sep, shape h c.sub)) ++ (c.sep, shape h t₁) ::
            (q.sep, shape h q.sub) :: B.map fun c => (c.sep, shape h c.sub) := by
        simp
      rw [internalCanFitOneMore_eq hs.ok.nodeSize_ge, hlen] at hrun
      by_cases hfit : b.kids.length < nodeCap sb.nodeSize
      · -- the node has room for the pending key pointer
        simp only [hfit, decide_true, ↓reduceIte, internalInsertKeyPtr, entry_insert hl t₁ hqgen]
          at hrun
        rw [run_bind] at hrun
        obtain ⟨a, v₂, hw, hrun⟩ := hrun
        simp only [run_pure] at hrun
        obtain ⟨rfl, rfl⟩ := hrun
        have hw := entry_write hg.ok hw
        obtain ⟨hg', hp, hsub⟩ := hs.write_copy hf hg hC hCsub hw
        refine ⟨hg', (⟨a, ⟨a, sb.generation + 1⟩, A ++ [⟨c.sep, sb.generation + 1, t₁⟩, q] ++ B⟩ :
          NodeBlk (LTree h)), none, rfl, rfl, ?_, by simp, ?_, ?_⟩
        · simp only [shape, STree.cut, hfs, hcut, List.length_map, hfit, ↓reduceIte,
            Option.map_none, hall]
        · intro sep gen
          exact Forest.cons_iff.mpr ⟨hp, ⟨by simp, by simp⟩, by simp⟩
        · intro sep gen
          simpa using hsub
      · -- a full node is split and hands its right half on
        simp only [hfit, decide_false, Bool.false_eq_true, ↓reduceIte, splitAndInsertInternal,
          entry_insert hl t₁ hqgen, List.length_map, ← List.map_take, ← List.map_drop] at hrun
        generalize hK : A ++ [⟨c.sep, sb.generation + 1, t₁⟩, q] ++ B = K at hrun hforest hall
        rw [run_bind] at hrun
        obtain ⟨a, v₂, hw, hrun⟩ := hrun
        rw [run_bind] at hrun
        obtain ⟨a', v₃, hw', hrun⟩ := hrun
        simp only [run_pure] at hrun
        obtain ⟨rfl, rfl⟩ := hrun
        have hw := writeCowNode_ok hg.ok (run_wrapErr.mp hw)
        have hw' := writeCowNode_ok hw.ok (run_wrapErr.mp hw')
        obtain ⟨hleft, hright, hLR⟩ := hforest.plant_halves hw hw'
        have hg₂ := hg.trans hw.grew
        have haF : blk sb a ⊆ F := hw.was_free.trans (hg.free_subset.trans hs.free_subset)
        have haF' : blk sb a' ⊆ F := hw'.was_free.trans (hg₂.free_subset.trans hs.free_subset)
        have hkept := kept_subset hs.apart hf haF hCsub
        have hkept' := kept_subset hs.apart hf haF' hCsub
        rw [hK] at hkept hkept'
        -- the right half is not empty, so its first key is a real one
        have hKlen : 2 ≤ K.length := by
          rw [← hK]; simp only [List.length_append, List.length_cons]; omega
        have hhalf : max 1 (K.length / 2) < K.length := by omega
        obtain ⟨d, D, hD⟩ := List.exists_cons_of_ne_nil
          (List.ne_nil_of_length_pos
            (show 0 < (K.drop (max 1 (K.length / 2))).length by rw [List.length_drop]; omega))
        refine ⟨hg₂.trans hw'.grew,
          (⟨a, ⟨a, sb.generation + 1⟩, K.take (max 1 (K.length / 2))⟩ : NodeBlk (LTree h)),
          some ⟨d.sep, sb.generation + 1,
            (⟨a', ⟨a', sb.generation + 1⟩, K.drop (max 1 (K.length / 2))⟩ : NodeBlk (LTree h))⟩,
          rfl, ?_, ?_, ?_, ?_, ?_⟩
        · simp only [hD]; rfl
        · simp only [shape, STree.cut, hfs, hcut, List.length_map, hfit, ↓reduceIte,
            Option.map_some, ← hall, ← List.map_take, ← List.map_drop]
          rw [hD]
          rfl
        · intro e he
          simp only [Option.mem_def, Option.some.injEq] at he
          rw [← he]
        · intro sep gen
          exact Forest.cons_iff.mpr ⟨hleft,
            Forest.cons_iff.mpr ⟨hright, ⟨by simp, by simp⟩, by simp⟩, by simpa using hLR⟩
        · intro sep gen
          simp only [Option.toList_some, feet_cons, feet_nil, Set.union_empty]
          refine Set.union_subset ?_ ?_
          · rw [foot_node]
            exact (Set.union_subset_union_right _ feet_take_subset).trans hkept
          · rw [foot_node]
            exact (Set.union_subset_union_right _ feet_drop_subset).trans hkept'

/-! ## 2. The root -/

/-- The key the code reads off the left node of a new root. -/
theorem buildNewRoot_held {dev : Device} {h root : Nat} {t : LTree h} (ht : Held sb dev h t)
    {key : Key} {right : Nat} {n : Node} (hn : buildNewRoot sb dev root key right (h + 1) = .ok n)
    (hroot : root = addr h t) :
    ∃ hdr, n = .internal hdr h
      [⟨STree.firstSep LeafItem.k ⟨0, 0, 0⟩ h (shape h t), root, sb.generation + 1⟩,
        ⟨key, right, sb.generation + 1⟩] := by
  subst hroot
  rw [buildNewRoot, held_root ht] at hn
  cases h with
  | zero =>
    obtain ⟨a, hdr, _ | ⟨it, items⟩⟩ := t
    · cases hn
    · refine ⟨hdr, ?_⟩
      simp only [node, bind, Except.bind, pure, Except.pure, Except.ok.injEq] at hn
      exact hn.symm
  | succ h =>
    obtain ⟨a, hdr, kids⟩ := t
    refine ⟨hdr, ?_⟩
    simp only [node, bind, Except.bind, pure, Except.pure, Except.ok.injEq] at hn
    rw [← hn]
    cases kids <;> rfl

/-- **The root after the climb**: the copy of the old root, or a new one over the two parts. -/
theorem cowGrowRoot_spec {l r : List LeafItem} {s : Key} {h root : Nat} {t t' : LTree h}
    {q : Option (Kid (LTree h))} {up : SplitUp} (hok : VolOk sb v) (hfree : v.sm.free ⊆ F)
    (hout : SplitOutcome sb v F k l r s t up t' q)
    (hrun : cowGrowRoot sb (h + 1) up v = .ok root v') :
    Grew sb v v' ∧ ∃ m, ∃ u : LTree m, addr m u = root ∧ Planted sb v' m u ∧
      foot sb m u ⊆ (foot sb h t \ pathFoot sb k h t) ∪ F ∧
      (⟨m, shape m u⟩ : STree.Any Key LeafItem) = STree.grow LeafItem.k ⟨0, 0, 0⟩ h
        (STree.cut (nodeCap sb.nodeSize) k l r s h (shape h t)) := by
  rw [cowGrowRoot, hout.pending_eq] at hrun
  rw [hout.cut_eq]
  cases q with
  | none =>
    simp only [Option.map_none, run_pure, hout.child_eq] at hrun
    obtain ⟨rfl, rfl⟩ := hrun
    have hp := (hout.forest ⟨0, 0, 0⟩ 0).planted ⟨⟨0, 0, 0⟩, 0, t'⟩ (by simp)
    exact ⟨Grew.refl hok, h, t', rfl, hp, by simpa using hout.feet_subset ⟨0, 0, 0⟩ 0, rfl⟩
  | some q =>
    simp only [Option.map_some] at hrun
    rw [run_bind] at hrun
    obtain ⟨v₀, v₁, hget, hrun⟩ := hrun
    obtain ⟨rfl, rfl⟩ := run_get.mp hget
    rw [run_bind] at hrun
    obtain ⟨n, v₂, hn, hrun⟩ := hrun
    rw [run_wrapErr, run_fromExcept] at hn
    obtain ⟨hn, rfl⟩ := hn
    have hgen : q.gen = sb.generation + 1 := hout.gen_eq q rfl
    generalize hsep : STree.firstSep LeafItem.k ⟨0, 0, 0⟩ h (shape h t') = sep at *
    have hforest := hout.forest sep (sb.generation + 1)
    have hfeet := hout.feet_subset sep (sb.generation + 1)
    have ht' := (hforest.planted ⟨sep, sb.generation + 1, t'⟩ (by simp)).held
    obtain ⟨hdr, rfl⟩ := buildNewRoot_held ht' hn hout.child_eq
    have hw := writeCowNode_ok hok (run_wrapErr.mp hrun)
    have hptrs : [⟨sep, up.child, sb.generation + 1⟩,
        ⟨q.sep, addr h q.sub, sb.generation + 1⟩] =
        [(⟨sep, sb.generation + 1, t'⟩ : Kid (LTree h)), q].map (ptr h) := by
      simp [ptr, hout.child_eq, hgen]
    simp only [hsep, hptrs] at hw
    simp only [Option.toList_some] at hforest hfeet
    refine ⟨hw.grew, h + 1, _, rfl, hforest.plant hw, ?_, ?_⟩
    · rw [foot_node]
      refine Set.union_subset ?_ hfeet
      exact (hw.was_free.trans hfree).trans Set.subset_union_right
    · simp only [STree.grow, Option.map_some, hsep, shape, List.map_cons, List.map_nil]

/-- **`cowInsertSplit` refines the cut of the search tree.** -/
theorem cowInsertSplit_spec {h root : Nat} {t : LTree h} {data : Bytes} (ht : TreeOk sb v t)
    (hrun : cowInsertSplit sb (addr h t) k data v = .ok root v') :
    h ≤ maxBtreeDepth ∧ ∃ l r s,
      splitAndInsertLeaf sb.nodeSize (STree.leafAt k h (shape h t)) k data = .ok (l, r, s) ∧
      Stands sb v' root (STree.grow LeafItem.k ⟨0, 0, 0⟩ h
        (STree.cut (nodeCap sb.nodeSize) k l r s h (shape h t))) ∧
      Moved sb v v' (foot sb h t) := by
  have hns : 0 < sb.nodeSize := lt_of_lt_of_le (by decide) ht.vol.nodeSize_ge
  rw [cowInsertSplit, run_bind] at hrun
  obtain ⟨v₀, v₁, hget, hrun⟩ := hrun
  obtain ⟨rfl, rfl⟩ := run_get.mp hget
  rw [run_bind] at hrun
  obtain ⟨path, v₂, htr, hrun⟩ := hrun
  rw [run_fromExcept] at htr
  obtain ⟨htr, rfl⟩ := htr
  rw [tracePath_held hns ht.held ht.apart ht.full] at htr
  split_ifs at htr with hdepth
  obtain rfl : trace k h t = path := by simpa using htr
  rw [run_bind] at hrun
  obtain ⟨⟨l, r, s⟩, v₃, hsplit, hrun⟩ := hrun
  rw [run_wrapErr, run_fromExcept] at hsplit
  obtain ⟨hsplit, rfl⟩ := hsplit
  rw [trace_items k h t ht.full] at hsplit
  refine ⟨hdepth, l, r, s, hsplit, ?_⟩
  -- the two halves of the leaf, the climb, the root, and the release of the old path
  rw [run_bind] at hrun
  obtain ⟨a, v₁, hwl, hrun⟩ := hrun
  rw [run_bind] at hrun
  obtain ⟨b, v₂, hwr, hrun⟩ := hrun
  rw [run_bind] at hrun
  obtain ⟨up, v₃, hclimb, hrun⟩ := hrun
  rw [run_bind] at hrun
  obtain ⟨rt, v₄, hgrow, hrun⟩ := hrun
  rw [run_bind] at hrun
  obtain ⟨u, v₅, hfreed, hrun⟩ := hrun
  rw [run_modify] at hfreed
  simp only [run_pure] at hrun
  obtain ⟨rfl, rfl⟩ := hrun
  subst hfreed
  have hwl := writeCowNode_ok ht.vol (run_wrapErr.mp hwl)
  have hwr := writeCowNode_ok hwl.ok (run_wrapErr.mp hwr)
  have hg := hwl.grew.trans hwr.grew
  have hleft := hwl.plant_leaf.grew hwr.grew
  have hright := hwr.plant_leaf
  have hapart : Disjoint (blk sb a) (blk sb b) := hwl.not_free.mono_right hwr.was_free
  have hsource : Source sb v₂ v.sm.free t :=
    ⟨hg.ok, hg.free_subset, ht.live, ht.held.frame hg.frame h t ht.live, ht.apart, ht.full⟩
  have hforest : Forest sb v₂ 0
      [⟨s, 0, (⟨a, ⟨a, sb.generation + 1⟩, l⟩ : LeafBlk)⟩,
        ⟨s, 0, (⟨b, ⟨b, sb.generation + 1⟩, r⟩ : LeafBlk)⟩] :=
    Forest.cons_iff.mpr ⟨hleft, Forest.cons_iff.mpr ⟨hright, ⟨by simp, by simp⟩, by simp⟩,
      by simpa [foot] using hapart⟩
  have hfeet : feet sb 0
      [⟨s, 0, (⟨a, ⟨a, sb.generation + 1⟩, l⟩ : LeafBlk)⟩,
        ⟨s, 0, (⟨b, ⟨b, sb.generation + 1⟩, r⟩ : LeafBlk)⟩] ⊆ v.sm.free := by
    simp only [feet_cons, feet_nil, Set.union_empty]
    exact Set.union_subset hwl.was_free (hwr.was_free.trans hwl.grew.free_subset)
  obtain ⟨hg', t', q, hout⟩ := cowSplitClimb_spec rfl rfl h t v₂ v₃ up hsource hforest hfeet hclimb
  rw [trace_inner_length k h t ht.full] at hgrow
  obtain ⟨hg'', m, u, hu, hp, hsub, hshape⟩ :=
    cowGrowRoot_spec hg'.ok ((hg.trans hg').free_subset) hout hgrow
  obtain ⟨hon, -, hmoved⟩ := release ht ((hg.trans hg').trans hg'') hp hsub
  exact ⟨Stands.intro u hu hon hshape, hmoved⟩

end Btrfs
