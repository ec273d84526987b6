/-
  Btrfs/Relocate.lean
  ===================
  **Moving a tree out of a range of the device** — `relocateSubtreePath` of
  `resize_reloc.go`.

  Before the device is cut, every node in the window `[dropStart, dropEnd)` is copied to a
  free block below it.  A copy has a new address, so the node above it is copied as well,
  and so on to the root; a subtree without a node in the window is left alone.  Old blocks
  are not freed and not written, so what was read before is still there (`Grew`).

  `Relocated` says node by node what the new tree is.  That the new blocks are mapped by
  the chunks is part of `VolOk`: the free list holds chunk bytes only.
-/
import Btrfs.Plant
import Btrfs.Walk

namespace Btrfs

open Lib LTree

variable {sb : Superblock} {v v' : Vol} {dropStart dropEnd : Nat}

/-! ## 1. The relocation -/

/-- The block of the node meets the window. -/
def overlaps (sb : Superblock) (dropStart dropEnd logAddr : Nat) : Bool :=
  decide (sb.physFromLog logAddr < dropEnd ∧ dropStart < sb.physFromLog logAddr + sb.nodeSize)

/-- Write the node to a fresh block that ends at `limit` or before. -/
def relocateNodeBuffer (sb : Superblock) (n : Node) (limit : Nat) : VolM Nat := fun v =>
  match v.sm.allocNodeBlock with
  | .error e => .error (.wrap "alloc replacement block: %w" [] e) v
  | .ok (newPhys, sm) =>
    if limit < newPhys + sb.nodeSize then
      .error (.errorf "no free metadata block below new size %d" [.num limit])
        { v with sm := sm.freeRange newPhys sb.nodeSize }
    else
      let newLog := sb.physToLog newPhys
      let n := n.stamp ⟨newLog, sb.generation + 1⟩
      .ok newLog ⟨writeNodeAtPhys sb v.dev newPhys n, sm⟩

/-- Relocate below a key pointer; the pointer follows a child that moved. -/
def relocateChild (sb : Superblock) (relocate : Nat → VolM (Nat × Bool)) (p : KeyPtr) :
    VolM (KeyPtr × Bool) :=
  if p.child = 0 then pure (p, false)
  else do
    let (newChild, childChanged) ← relocate p.child
    if childChanged then return ({ p with child := newChild, gen := sb.generation + 1 }, true)
    else return (p, false)

/-- Relocate what lies below the node, then the node itself if anything below it moved or if it
    meets the window.  The first argument is the number of levels that may still be entered. -/
def relocateSubtreePath (sb : Superblock) (dropStart dropEnd : Nat) : Nat → Nat → VolM (Nat × Bool)
  | 0, _ => throw (.errorf "relocate subtree: depth exceeds %d" [.num maxBtreeDepth])
  | d + 1, logAddr => do
    let v ← get
    let n ← wrapErr (.wrap "read node 0x%X: %w" [.num logAddr]) (fromExcept (readNode sb v.dev logAddr))
    match n with
    | .leaf hdr items =>
      if overlaps sb dropStart dropEnd logAddr then
        return (← relocateNodeBuffer sb (.leaf hdr items) dropStart, true)
      else return (logAddr, false)
    | .internal hdr below ptrs =>
      let moved ← ptrs.mapM (relocateChild sb (relocateSubtreePath sb dropStart dropEnd d))
      if moved.any Prod.snd || overlaps sb dropStart dropEnd logAddr then
        return (← relocateNodeBuffer sb (.internal hdr below (moved.map Prod.fst)) dropStart, true)
      else return (logAddr, false)

/-! ## 2. What a relocation makes of a tree -/

/-- Some node of the tree meets the window. -/
def Touches (sb : Superblock) (dropStart dropEnd : Nat) (h : Nat) (t : LTree h) : Prop :=
  ∃ a ∈ nodeAddrs h t, overlaps sb dropStart dropEnd a = true

namespace LTree

def hdr : (h : Nat) → LTree h → NodeHdr
  | 0, (b : LeafBlk) => b.hdr
  | _ + 1, (b : NodeBlk (LTree _)) => b.hdr

end LTree

/-- A rewritten node: its header has its new address and the generation of the transaction, and
    its block lies below the window. -/
structure Rewritten (sb : Superblock) (dropStart : Nat) (h : Nat) (t : LTree h) : Prop where
  hdr_eq : hdr h t = ⟨addr h t, sb.generation + 1⟩
  below : sb.physFromLog (addr h t) + sb.nodeSize ≤ dropStart

/-- The second tree is the first one after a relocation.  A subtree that does not meet the window is
    the same node for node; otherwise its root is rewritten, over children of which each has its old
    key and, if it was rewritten, the new generation in its key pointer. -/
def Relocated (sb : Superblock) (dropStart dropEnd : Nat) : (h : Nat) → LTree h → LTree h → Prop
  | 0, (b : LeafBlk), (b' : LeafBlk) =>
    (¬ Touches sb dropStart dropEnd 0 b → b' = b) ∧
    (Touches sb dropStart dropEnd 0 b → Rewritten sb dropStart 0 b' ∧ b'.items = b.items)
  | h + 1, (b : NodeBlk (LTree h)), (b' : NodeBlk (LTree h)) =>
    (¬ Touches sb dropStart dropEnd (h + 1) b → b' = b) ∧
    (Touches sb dropStart dropEnd (h + 1) b → Rewritten sb dropStart (h + 1) b' ∧
      List.Forall₂ (fun c c' => c'.sep = c.sep ∧ Relocated sb dropStart dropEnd h c.sub c'.sub ∧
        (¬ Touches sb dropStart dropEnd h c.sub → c'.gen = c.gen) ∧
        (Touches sb dropStart dropEnd h c.sub → c'.gen = sb.generation + 1)) b.kids b'.kids)

theorem touches_node {h : Nat} {b : NodeBlk (LTree h)} : Touches sb dropStart dropEnd (h + 1) b ↔
    overlaps sb dropStart dropEnd b.addr = true ∨ ∃ c ∈ b.kids, Touches sb dropStart dropEnd h c.sub := by
  simp only [Touches, nodeAddrs, List.mem_cons, List.mem_flatMap]
  constructor
  · rintro ⟨a, rfl | ⟨c, hc, ha⟩, hover⟩
    · exact Or.inl hover
    · exact Or.inr ⟨c, hc, a, ha, hover⟩
  · rintro (hover | ⟨c, hc, a, ha, hover⟩)
    · exact ⟨b.addr, Or.inl rfl, hover⟩
    · exact ⟨a, Or.inr ⟨c, hc, ha⟩, hover⟩

theorem touches_leaf {b : LeafBlk} :
    Touches sb dropStart dropEnd 0 b ↔ overlaps sb dropStart dropEnd b.addr = true := by
  simp [Touches, nodeAddrs]

theorem Rewritten.clear {h : Nat} {t : LTree h} (ht : Rewritten sb dropStart h t) :
    overlaps sb dropStart dropEnd (addr h t) = false := by
  have := ht.below
  rw [overlaps, decide_eq_false_iff_not]
  omega

theorem exists_of_forall₂ {α β : Type} {R : α → β → Prop} {l : List α} {m : List β} (h : List.Forall₂ R l m)
    {y : β} (hy : y ∈ m) : ∃ x ∈ l, R x y := by
  induction h with
  | nil => cases hy
  | @cons x y' l m hxy _ ih =>
    rcases List.mem_cons.mp hy with rfl | hy
    · exact ⟨x, List.mem_cons_self, hxy⟩
    · obtain ⟨x', hx', hR⟩ := ih hy
      exact ⟨x', List.mem_cons_of_mem _ hx', hR⟩

namespace Relocated

/-- The shape of the tree does not change. -/
theorem shape_eq : ∀ {h : Nat} {t t' : LTree h}, Relocated sb dropStart dropEnd h t t' →
    shape h t' = shape h t := by
  intro h
  induction h with
  | zero =>
    intro (b : LeafBlk) (b' : LeafBlk) hr
    by_cases ht : Touches sb dropStart dropEnd 0 b
    · exact (hr.2 ht).2
    · rw [hr.1 ht]
  | succ h ih =>
    intro (b : NodeBlk (LTree h)) (b' : NodeBlk (LTree h)) hr
    by_cases ht : Touches sb dropStart dropEnd (h + 1) b
    · simp only [shape]
      obtain ⟨-, hkids⟩ := hr.2 ht
      generalize b.kids = K at hkids
      generalize b'.kids = K' at hkids
      induction hkids with
      | nil => rfl
      | cons hc _ ihK =>
        obtain ⟨hsep, hrel, -⟩ := hc
        rw [List.map_cons, List.map_cons, ihK, hsep, ih hrel]
    · rw [hr.1 ht]

theorem contents_eq {h : Nat} {t t' : LTree h} (hr : Relocated sb dropStart dropEnd h t t') :
    contents h t' = contents h t := by
  rw [contents, contents, items, items, hr.shape_eq]

/-- No node of the new tree meets the window. -/
theorem clear : ∀ {h : Nat} {t t' : LTree h}, Relocated sb dropStart dropEnd h t t' →
    ∀ a ∈ nodeAddrs h t', overlaps sb dropStart dropEnd a = false := by
  intro h
  induction h with
  | zero =>
    intro (b : LeafBlk) (b' : LeafBlk) hr a ha
    by_cases ht : Touches sb dropStart dropEnd 0 b
    · obtain rfl : a = addr 0 b' := List.mem_singleton.mp ha
      exact (hr.2 ht).1.clear
    · rw [hr.1 ht] at ha
      exact Bool.eq_false_iff.mpr fun hover => ht ⟨a, ha, hover⟩
  | succ h ih =>
    intro (b : NodeBlk (LTree h)) (b' : NodeBlk (LTree h)) hr a ha
    by_cases ht : Touches sb dropStart dropEnd (h + 1) b
    · obtain ⟨hroot, hkids⟩ := hr.2 ht
      rcases List.mem_cons.mp ha with rfl | ha
      · exact hroot.clear
      · obtain ⟨c', hc', ha⟩ := List.mem_flatMap.mp ha
        obtain ⟨c, -, -, hrel, -⟩ := exists_of_forall₂ hkids hc'
        exact ih hrel a ha
    · rw [hr.1 ht] at ha
      exact Bool.eq_false_iff.mpr fun hover => ht ⟨a, ha, hover⟩

end Relocated

/-! ## 3. What a run does -/

/-- On a volume whose free list is mapped, the block is written as a copy-on-write block is. -/
theorem relocateNodeBuffer_ok {n : Node} {limit a : Nat} (hok : VolOk sb v)
    (h : relocateNodeBuffer sb n limit v = .ok a v') :
    Wrote sb n v a v' ∧ sb.physFromLog a + sb.nodeSize ≤ limit := by
  have hns : 0 < sb.nodeSize := lt_of_lt_of_le (by decide) hok.nodeSize_ge
  rw [relocateNodeBuffer] at h
  cases hal : v.sm.allocNodeBlock with
  | error e => rw [hal] at h; cases h
  | ok r =>
    obtain ⟨p, sm⟩ := r
    simp only [hal] at h
    split_ifs at h with hlimit
    have ha := SpaceManager.allocNodeBlock_ok hok.noOverlap hal
    rw [hok.sm_nodeSize] at ha
    have hp : p ∈ v.sm.free := ha.was_free ⟨le_refl p, by simp only; omega⟩
    have hback := hok.physFromLog_physToLog hp
    have hcow : writeCowNode sb n v = .ok a v' := by
      rw [writeCowNode, hal]
      simp only [hback]
      exact h
    simp only [EStateM.Result.ok.injEq] at h
    obtain ⟨rfl, -⟩ := h
    exact ⟨writeCowNode_ok hok hcow, by rw [hback]; omega⟩

/-- A run that moves what it must. -/
structure MovedTree (sb : Superblock) (dropStart dropEnd : Nat) (v v' : Vol) (h : Nat) (t t' : LTree h) :
    Prop where
  relocated : Relocated sb dropStart dropEnd h t t'
  planted : Planted sb v' h t'
  grew : Grew sb v v'
  foot_subset : foot sb h t' ⊆ foot sb h t ∪ v.sm.free

/-- A child before and after. -/
def KidMoved (sb : Superblock) (dropStart dropEnd : Nat) (h : Nat) (c c' : Kid (LTree h)) : Prop :=
  c'.sep = c.sep ∧ Relocated sb dropStart dropEnd h c.sub c'.sub ∧
    (¬ Touches sb dropStart dropEnd h c.sub → c'.gen = c.gen) ∧
    (Touches sb dropStart dropEnd h c.sub → c'.gen = sb.generation + 1)

/-- The loop over the children, given what a run does below one of them. -/
theorem relocateChildren_ok {h : Nat} {relocate : Nat → VolM (Nat × Bool)}
    (hone : ∀ (t : LTree h) (v v' : Vol) (r : Nat) (ch : Bool), VolOk sb v → Planted sb v h t →
      relocate (addr h t) v = .ok (r, ch) v' →
      ∃ t', addr h t' = r ∧ (ch = true ↔ Touches sb dropStart dropEnd h t) ∧
        MovedTree sb dropStart dropEnd v v' h t t') :
    ∀ (K : List (Kid (LTree h))) (v v' : Vol) (moved : List (KeyPtr × Bool)), VolOk sb v →
      Forest sb v h K → (K.map (ptr h)).mapM (relocateChild sb relocate) v = .ok moved v' →
      ∃ K', moved.map Prod.fst = K'.map (ptr h) ∧
        (moved.any Prod.snd = true ↔ ∃ c ∈ K, Touches sb dropStart dropEnd h c.sub) ∧
        List.Forall₂ (KidMoved sb dropStart dropEnd h) K K' ∧ Forest sb v' h K' ∧ Grew sb v v' ∧
        feet sb h K' ⊆ feet sb h K ∪ v.sm.free := by
  intro K
  induction K with
  | nil =>
    intro v v' moved hok _ hrun
    rw [List.map_nil, run_mapM_nil] at hrun
    obtain ⟨rfl, rfl⟩ := hrun
    exact ⟨[], rfl, by simp, .nil, ⟨nofun, .nil⟩, Grew.refl hok, by simp⟩
  | cons c K ih =>
    intro v v' moved hok hf hrun
    obtain ⟨hc, hK, hcK⟩ := Forest.cons_iff.mp hf
    rw [List.map_cons, run_mapM_cons] at hrun
    obtain ⟨p, v₁, moved', hp, hrest, rfl⟩ := hrun
    -- the first child
    rw [relocateChild, if_neg (show (ptr h c).child ≠ 0 from hc.addr_ne), run_bind] at hp
    obtain ⟨⟨r, ch⟩, v₂, hrel, hp⟩ := hp
    obtain ⟨t', rfl, hch, hmoved⟩ := hone c.sub v v₂ r ch hok hc hrel
    obtain ⟨c', hptr, hv, hflag, hkid, hsub⟩ : ∃ c' : Kid (LTree h), p.1 = ptr h c' ∧ v₂ = v₁ ∧
        (p.2 = true ↔ Touches sb dropStart dropEnd h c.sub) ∧ KidMoved sb dropStart dropEnd h c c' ∧
        c'.sub = t' := by
      by_cases ht : Touches sb dropStart dropEnd h c.sub
      · obtain rfl := hch.mpr ht
        simp only [if_true, run_pure] at hp
        obtain ⟨rfl, rfl⟩ := hp
        exact ⟨⟨c.sep, sb.generation + 1, t'⟩, rfl, rfl, hch, ⟨rfl, hmoved.relocated,
          fun hn => absurd ht hn, fun _ => rfl⟩, rfl⟩
      · obtain rfl : ch = false := Bool.eq_false_iff.mpr fun h => ht (hch.mp h)
        simp only [Bool.false_eq_true, if_false, run_pure] at hp
        obtain ⟨rfl, rfl⟩ := hp
        -- the subtree is the old one
        have hsame : t' = c.sub := by
          cases h with
          | zero => exact hmoved.relocated.1 ht
          | succ h => exact hmoved.relocated.1 ht
        exact ⟨c, rfl, rfl, hch, ⟨rfl, hsame ▸ hmoved.relocated, fun _ => rfl, fun hn => absurd hn ht⟩,
          hsame.symm⟩
    subst hv hsub
    -- the others
    obtain ⟨K', hptrs, hany, hkids, hf', hgrew, hfeet⟩ := ih v₂ v' moved' hmoved.grew.ok (hK.grew hmoved.grew) hrest
    refine ⟨c' :: K', ?_, ?_, .cons hkid hkids, Forest.cons_iff.mpr ⟨?_, hf', ?_⟩, hmoved.grew.trans hgrew, ?_⟩
    · rw [List.map_cons, List.map_cons, hptr, hptrs]
    · rw [List.any_cons, Bool.or_eq_true, hflag, hany]
      simp
    · exact hmoved.planted.grew hgrew
    · -- the new child is clear of the old others and of what was free when they were moved
      refine Disjoint.mono_right hfeet (Set.disjoint_union_right.mpr ⟨?_, hmoved.planted.live⟩)
      refine Disjoint.mono_left hmoved.foot_subset (Set.disjoint_union_left.mpr ⟨hcK, hK.live.symm⟩)
    · rw [feet_cons, feet_cons]
      refine Set.union_subset ?_ ?_
      · refine hmoved.foot_subset.trans (Set.union_subset_union_left _ Set.subset_union_left)
      · refine hfeet.trans (Set.union_subset_union Set.subset_union_right hmoved.grew.free_subset)

theorem relocateSubtreePath_ok : ∀ (h : Nat) (t : LTree h) (d : Nat) (v v' : Vol) (r : Nat) (ch : Bool),
    VolOk sb v → Planted sb v h t →
    relocateSubtreePath sb dropStart dropEnd d (addr h t) v = .ok (r, ch) v' →
    ∃ t', addr h t' = r ∧ (ch = true ↔ Touches sb dropStart dropEnd h t) ∧
      MovedTree sb dropStart dropEnd v v' h t t' := by
  intro h
  induction h with
  | zero =>
    intro (b : LeafBlk) d v v' r ch hok ht hrun
    have hread : readNode sb v.dev (addr 0 b) = .ok (.leaf b.hdr b.items) := ht.held
    cases d with
    | zero => simp [relocateSubtreePath] at hrun
    | succ d =>
      simp only [relocateSubtreePath, run_bind, run_get, run_wrapErr, run_fromExcept] at hrun
      obtain ⟨_, _, ⟨rfl, rfl⟩, n, _, ⟨hn, rfl⟩, hrun⟩ := hrun
      rw [hread, Except.ok.injEq] at hn
      subst hn
      simp only at hrun
      by_cases hover : overlaps sb dropStart dropEnd (addr 0 b) = true
      · have htouch : Touches sb dropStart dropEnd 0 b := touches_leaf.mpr hover
        simp only [hover, if_true, run_bind, run_pure] at hrun
        obtain ⟨a, v₁, hwrite, hret, rfl⟩ := hrun
        cases hret
        obtain ⟨hw, hbelow⟩ := relocateNodeBuffer_ok hok hwrite
        refine ⟨(⟨r, ⟨r, sb.generation + 1⟩, b.items⟩ : LeafBlk), rfl, ⟨fun _ => htouch, fun _ => rfl⟩,
          ⟨⟨fun hn => absurd htouch hn, fun _ => ⟨⟨rfl, hbelow⟩, rfl⟩⟩, hw.plant_leaf, hw.grew, ?_⟩⟩
        exact hw.was_free.trans Set.subset_union_right
      · have hclear : ¬ Touches sb dropStart dropEnd 0 b := fun h => hover (touches_leaf.mp h)
        rw [if_neg hover, run_pure] at hrun
        obtain ⟨hret, rfl⟩ := hrun
        cases hret
        exact ⟨b, rfl, ⟨fun h => absurd h Bool.false_ne_true, fun h => absurd h hclear⟩, ⟨fun _ => rfl, fun h => absurd h hclear⟩, ht,
          Grew.refl hok, Set.subset_union_left⟩
  | succ h ih =>
    intro (b : NodeBlk (LTree h)) d v v' r ch hok ht hrun
    have hread : readNode sb v.dev (addr (h + 1) b) = .ok (.internal b.hdr h (b.kids.map (ptr h))) := ht.held.1
    cases d with
    | zero => simp [relocateSubtreePath] at hrun
    | succ d =>
      simp only [relocateSubtreePath, run_bind, run_get, run_wrapErr, run_fromExcept] at hrun
      obtain ⟨_, _, ⟨rfl, rfl⟩, n, _, ⟨hn, rfl⟩, hrun⟩ := hrun
      rw [hread, Except.ok.injEq] at hn
      subst hn
      simp only [run_bind] at hrun
      obtain ⟨moved, v₁, hmap, hrun⟩ := hrun
      have hf := Forest.of_held ht.held ht.apart ht.live
      obtain ⟨K', hptrs, hany, hkids, hf', hgrew, hfeet⟩ := relocateChildren_ok
        (fun t v v' r ch => ih t d v v' r ch) b.kids v v₁ moved hok hf hmap
      have htouch : (moved.any Prod.snd || overlaps sb dropStart dropEnd (addr (h + 1) b)) = true ↔
          Touches sb dropStart dropEnd (h + 1) b := by
        rw [Bool.or_eq_true, hany, touches_node, or_comm]
        rfl
      by_cases hmove : Touches sb dropStart dropEnd (h + 1) b
      · rw [if_pos (htouch.mpr hmove), run_bind] at hrun
        obtain ⟨a, v₂, hwrite, hrun⟩ := hrun
        rw [run_pure] at hrun
        obtain ⟨hret, rfl⟩ := hrun
        cases hret
        rw [hptrs] at hwrite
        obtain ⟨hw, hbelow⟩ := relocateNodeBuffer_ok hgrew.ok hwrite
        refine ⟨(⟨r, ⟨r, sb.generation + 1⟩, K'⟩ : NodeBlk (LTree h)), rfl, ⟨fun _ => hmove, fun _ => rfl⟩,
          ⟨⟨fun hn => absurd hmove hn, fun _ => ⟨⟨rfl, hbelow⟩, hkids⟩⟩, hf'.plant hw, hgrew.trans hw.grew, ?_⟩⟩
        rw [foot_node, foot_node]
        refine Set.union_subset ?_ ?_
        · exact hw.was_free.trans (hgrew.free_subset.trans Set.subset_union_right)
        · exact hfeet.trans (Set.union_subset_union_left _ Set.subset_union_right)
      · rw [if_neg (fun h => hmove (htouch.mp h)), run_pure] at hrun
        obtain ⟨hret, rfl⟩ := hrun
        cases hret
        exact ⟨b, rfl, ⟨fun h => absurd h Bool.false_ne_true, fun h => absurd h hmove⟩, ⟨fun _ => rfl, fun h => absurd h hmove⟩,
          ht.grew hgrew, hgrew, Set.subset_union_left⟩

/-- A relocation that succeeds moves exactly the nodes it must, keeps the contents, and leaves no node
    in the window. -/
theorem relocateSubtreePath_law {h : Nat} {t : LTree h} {newRoot : Nat} {changed : Bool} (hok : VolOk sb v)
    (ht : Planted sb v h t)
    (hrun : relocateSubtreePath sb dropStart dropEnd (maxBtreeDepth + 1) (addr h t) v = .ok (newRoot, changed) v') :
    ∃ t' : LTree h, addr h t' = newRoot ∧ Planted sb v' h t' ∧ contents h t' = contents h t ∧
      (∀ a ∈ nodeAddrs h t', overlaps sb dropStart dropEnd a = false) ∧
      (changed = true ↔ ∃ a ∈ nodeAddrs h t, overlaps sb dropStart dropEnd a = true) ∧
      Relocated sb dropStart dropEnd h t t' ∧
      ∀ a, Disjoint (blk sb a) v.sm.free → readNode sb v'.dev a = readNode sb v.dev a := by
  obtain ⟨t', haddr, hch, hmoved⟩ := relocateSubtreePath_ok h t _ v v' newRoot changed hok ht hrun
  exact ⟨t', haddr, hmoved.planted, hmoved.relocated.contents_eq, hmoved.relocated.clear, hch, hmoved.relocated,
    hmoved.grew.frame⟩

/-- One chunk of eight blocks. -/
def eightBlockSb : Superblock where
  nodeSize := 4096
  sectorSize := 4096
  totalBytes := 0x200000
  rootLogAddr := 0x200000
  chunkLogAddr := 0x200000
  generation := 7
  sysChunks := [⟨0x200000, 0x8000, 0x100000, 0⟩]

/-- A root over two leaves, the second one in the seventh block. -/
def tailTree : LTree 1 :=
  (⟨0x200000, ⟨0x200000, 7⟩, [⟨⟨1, 1, 0⟩, 7, (⟨0x201000, ⟨0x201000, 7⟩, [⟨⟨1, 1, 0⟩, 3990, [1]⟩]⟩ : LeafBlk)⟩,
    ⟨⟨2, 1, 0⟩, 7, (⟨0x206000, ⟨0x206000, 7⟩, [⟨⟨2, 1, 0⟩, 3990, [2]⟩]⟩ : LeafBlk)⟩]⟩ : NodeBlk (LTree 0))

def tailDev : Device :=
  [⟨0x100000, 4096, .node (node 1 tailTree)⟩,
    ⟨0x101000, 4096, .node (.leaf ⟨0x201000, 7⟩ [⟨⟨1, 1, 0⟩, 3990, [1]⟩])⟩,
    ⟨0x106000, 4096, .node (.leaf ⟨0x206000, 7⟩ [⟨⟨2, 1, 0⟩, 3990, [2]⟩])⟩]

/-- Blocks three to five are free. -/
def tailVol : Vol := ⟨tailDev, ⟨[⟨0x102000, 0x3000⟩], 4096⟩⟩

theorem eightBlock_volOk {dev : Device} : VolOk eightBlockSb ⟨dev, ⟨[⟨0x102000, 0x3000⟩], 4096⟩⟩ := by
  refine ⟨by decide, rfl, List.pairwise_singleton _ _, List.pairwise_singleton _ _, ?_⟩
  rintro p ⟨e, he, hp⟩
  obtain rfl := List.mem_singleton.mp he
  rw [Span.mem_bytes] at hp
  dsimp only at hp
  have hin : (⟨0x200000, 0x8000, 0x100000, 0⟩ : ChunkMapping).holdsPhys p = true := by
    simp only [ChunkMapping.holdsPhys, decide_eq_true_eq]
    omega
  have hfind : eightBlockSb.sysChunks.find? (·.holdsPhys p) = some ⟨0x200000, 0x8000, 0x100000, 0⟩ :=
    List.find?_cons_of_pos hin
  refine ⟨⟨_, List.mem_singleton.mpr rfl, hin⟩, ?_⟩
  rw [Superblock.physToLog, hfind]
  dsimp only
  omega

theorem tailTree_planted : Planted eightBlockSb tailVol 1 tailTree := by
  have hreads : readNode eightBlockSb tailVol.dev 0x200000 = .ok (node 1 tailTree) ∧
      readNode eightBlockSb tailVol.dev 0x201000 = .ok (.leaf ⟨0x201000, 7⟩ [⟨⟨1, 1, 0⟩, 3990, [1]⟩]) ∧
      readNode eightBlockSb tailVol.dev 0x206000 = .ok (.leaf ⟨0x206000, 7⟩ [⟨⟨2, 1, 0⟩, 3990, [2]⟩]) ∧
      eightBlockSb.physFromLog 0x200000 = 0x100000 ∧ eightBlockSb.physFromLog 0x201000 = 0x101000 ∧
      eightBlockSb.physFromLog 0x206000 = 0x106000 := by
    decide +kernel
  obtain ⟨h0, h1, h2, hp0, hp1, hp2⟩ := hreads
  have hblk : ∀ {a p : Nat}, eightBlockSb.physFromLog a = p → blk eightBlockSb a = (⟨p, 4096⟩ : Span).bytes := by
    rintro a p rfl
    rfl
  have hfree : tailVol.sm.free = (⟨0x102000, 0x3000⟩ : Span).bytes := by
    simp [SpaceManager.free, tailVol]
  have hfoot : foot eightBlockSb 1 tailTree = (⟨0x100000, 4096⟩ : Span).bytes ∪
      ((⟨0x101000, 4096⟩ : Span).bytes ∪ (⟨0x106000, 4096⟩ : Span).bytes) := by
    have haddrs : nodeAddrs 1 tailTree = [0x200000, 0x201000, 0x206000] := by decide
    ext p
    rw [← hblk hp0, ← hblk hp1, ← hblk hp2, mem_foot_iff, haddrs]
    simp
  have hapart : ∀ {p q n m : Nat}, p + n ≤ q → Disjoint (⟨p, n⟩ : Span).bytes (⟨q, m⟩ : Span).bytes :=
    fun h => Span.disjoint_of_le (Or.inl h)
  refine ⟨by decide, ⟨h0, ?_⟩, ⟨?_, ?_⟩, ?_⟩
  · intro c hc
    simp only [tailTree, List.mem_cons, List.not_mem_nil, or_false] at hc
    rcases hc with rfl | rfl
    · exact ⟨by decide, h1⟩
    · exact ⟨by decide, h2⟩
  · refine List.pairwise_pair.mpr ?_
    change Disjoint (blk eightBlockSb 0x201000) (blk eightBlockSb 0x206000)
    rw [hblk hp1, hblk hp2]
    exact hapart (by decide)
  · intro c hc
    simp only [tailTree, List.mem_cons, List.not_mem_nil, or_false] at hc
    rcases hc with rfl | rfl
    · refine ⟨?_, trivial⟩
      change Disjoint (blk eightBlockSb 0x200000) (blk eightBlockSb 0x201000)
      rw [hblk hp0, hblk hp1]
      exact hapart (by decide)
    · refine ⟨?_, trivial⟩
      change Disjoint (blk eightBlockSb 0x200000) (blk eightBlockSb 0x206000)
      rw [hblk hp0, hblk hp2]
      exact hapart (by decide)
  · rw [hfoot, hfree, Set.disjoint_union_left, Set.disjoint_union_left]
    exact ⟨hapart (by decide), hapart (by decide), (hapart (by decide)).symm⟩

theorem relocateSubtreePath_law_tail : ∃ v' : Vol, ∃ t' : LTree 1,
    relocateSubtreePath eightBlockSb 0x106000 0x107000 65 0x200000 tailVol = .ok (0x203000, true) v' ∧
    addr 1 t' = 0x203000 ∧ Held eightBlockSb v'.dev 1 t' ∧ contents 1 t' = [(⟨1, 1, 0⟩, [1]), (⟨2, 1, 0⟩, [2])] ∧
      ∀ a ∈ nodeAddrs 1 t', overlaps eightBlockSb 0x106000 0x107000 a = false := by
  have hfacts : succeeded (relocateSubtreePath eightBlockSb 0x106000 0x107000 65 0x200000 tailVol) = true ∧
      (outcome (0, false) (relocateSubtreePath eightBlockSb 0x106000 0x107000 65 0x200000 tailVol)).1 =
        (0x203000, true) := by decide +kernel
  have hrun := eq_ok_of_succeeded (0, false) hfacts.1
  rw [hfacts.2] at hrun
  obtain ⟨t', haddr, hplanted, hcont, hclear, -⟩ :=
    relocateSubtreePath_law (t := tailTree) eightBlock_volOk tailTree_planted hrun
  exact ⟨_, t', hrun, haddr, hplanted.held, hcont, hclear⟩

/-- A leaf in the window, and a free block that no chunk maps. -/
def strayVol : Vol := ⟨[⟨0x106000, 4096, .node (.leaf ⟨0x206000, 7⟩ [⟨⟨2, 1, 0⟩, 3990, [2]⟩])⟩], ⟨[⟨0x1000, 4096⟩], 4096⟩⟩

/-- The copy is written to the block, but its address is not mapped: nothing can be read there. -/
theorem relocate_unmapped :
    Held eightBlockSb strayVol.dev 0 (⟨0x206000, ⟨0x206000, 7⟩, [⟨⟨2, 1, 0⟩, 3990, [2]⟩]⟩ : LeafBlk) ∧
    Disjoint (blk eightBlockSb 0x206000) strayVol.sm.free ∧
    ∃ v', relocateSubtreePath eightBlockSb 0x106000 0x107000 65 0x206000 strayVol = .ok (0x1000, true) v' ∧
      ∀ h (t' : LTree h), addr h t' = 0x1000 → ¬ Held eightBlockSb v'.dev h t' := by
  have hfacts : readNode eightBlockSb strayVol.dev 0x206000 =
        .ok (.leaf ⟨0x206000, 7⟩ [⟨⟨2, 1, 0⟩, 3990, [2]⟩]) ∧ eightBlockSb.physFromLog 0x206000 = 0x106000 ∧
      succeeded (relocateSubtreePath eightBlockSb 0x106000 0x107000 65 0x206000 strayVol) = true ∧
      (outcome (0, false) (relocateSubtreePath eightBlockSb 0x106000 0x107000 65 0x206000 strayVol)).1 =
        (0x1000, true) ∧
      (readNode eightBlockSb (outcome (0, false)
        (relocateSubtreePath eightBlockSb 0x106000 0x107000 65 0x206000 strayVol)).2.dev 0x1000).toOption = none := by
    decide +kernel
  obtain ⟨hread, hphys, hok, hres, hlost⟩ := hfacts
  have hrun := eq_ok_of_succeeded (0, false) hok
  rw [hres] at hrun
  refine ⟨hread, ?_, _, hrun, fun h t' haddr hheld => ?_⟩
  · rw [blk, hphys]
    refine (Span.disjoint_of_le (Or.inr ?_)).mono_right (show strayVol.sm.free ⊆ (⟨0x1000, 4096⟩ : Span).bytes from ?_)
    · decide
    · rintro p ⟨e, he, hp⟩
      obtain rfl := List.mem_singleton.mp he
      exact hp
  · have hroot := held_root hheld
    rw [haddr] at hroot
    rw [hroot] at hlost
    cases hlost

end Btrfs
