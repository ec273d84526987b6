/-
  Btrfs/CowRoom.lean
  ==================
  **When a mutation cannot run out of space.**

  `cowMutate` writes at most one block for the leaf and one for each internal node of
  the path, and returns as many, so a tree of height `h` can be mutated as long as the
  free extents hold `h + 1` node blocks, and they hold as many again afterwards.
-/
import Btrfs.CowMutate

namespace Btrfs

open Lib LTree

variable {sb : Superblock} {v v' : Vol} {k : Key}

/-- The run succeeds and costs at most `n` blocks. -/
def Costs {α : Type} (x : VolM α) (v : Vol) (n : Nat) : Prop :=
  ∃ a v', x v = .ok a v' ∧ v.sm.blocks ≤ v'.sm.blocks + n ∧ v'.sm.nodeSize = v.sm.nodeSize

theorem costs_pure {α : Type} (a : α) (v : Vol) : Costs (pure a) v 0 :=
  ⟨a, v, rfl, le_rfl, rfl⟩

theorem costs_bind {α β : Type} {x : VolM α} {f : α → VolM β} {n p : Nat} (hx : Costs x v n)
    (hf : ∀ a v', x v = .ok a v' → v.sm.blocks ≤ v'.sm.blocks + n →
      v'.sm.nodeSize = v.sm.nodeSize → Costs (f a) v' p) : Costs (x >>= f) v (n + p) := by
  obtain ⟨a, v₁, hrun, hb, hns⟩ := hx
  obtain ⟨b, v₂, hrun', hb', hns'⟩ := hf a v₁ hrun hb hns
  exact ⟨b, v₂, run_bind.mpr ⟨a, v₁, hrun, hrun'⟩, by omega, hns'.trans hns⟩

theorem Costs.mono {α : Type} {x : VolM α} {n p : Nat} (hx : Costs x v n) (hle : n ≤ p) :
    Costs x v p := by
  obtain ⟨a, v₁, hrun, hb, hns⟩ := hx
  exact ⟨a, v₁, hrun, by omega, hns⟩

theorem costs_write (msg : String) (n : Node) (hns : 0 < v.sm.nodeSize) (hroom : 0 < v.sm.blocks) :
    Costs (wrapErr (.wrap msg []) (writeCowNode sb n)) v 1 := by
  obtain ⟨⟨p, sm⟩, hal⟩ := SpaceManager.allocNodeBlock_isOk hroom
  have hblocks := SpaceManager.allocNodeBlock_blocks hns hal
  have hsize : sm.nodeSize = v.sm.nodeSize := by
    obtain ⟨l, e, m, -, -, -, rfl⟩ := SpaceManager.allocNodeBlock_inv hal
    rfl
  refine ⟨sb.physToLog p, ⟨writeNodeAtPhys sb v.dev (sb.physFromLog (sb.physToLog p))
    (n.stamp ⟨sb.physToLog p, sb.generation + 1⟩), sm⟩, ?_, by simp only; omega, hsize⟩
  rw [run_wrapErr, writeCowNode, hal]

/-- Up the path, every node costs at most one block. -/
theorem costs_cowClimb (start : Climbed) : ∀ (inner : List PathEntry) (isRoot : Bool) (v : Vol),
    0 < v.sm.nodeSize → inner.length ≤ v.sm.blocks →
    Costs (cowClimb sb isRoot inner start) v inner.length := by
  intro inner
  induction inner with
  | nil => intro isRoot v _ _; exact costs_pure _ v
  | cons pe deeper ih =>
    intro isRoot v hns hroom
    rw [List.length_cons] at hroom
    unfold cowClimb
    refine costs_bind (ih false v hns (by omega)) ?_
    intro up v₁ hrun hb hns'
    -- the block for this node is still there
    have hwrite : ∀ ptrs, Costs (do return Climbed.child (← pe.write sb ptrs)) v₁ (1 + 0) := by
      intro ptrs
      refine costs_bind (costs_write _ _ (by omega) (by omega)) ?_
      intro a v₂ _ _ _
      exact costs_pure _ v₂
    have hfree : ∀ r : Climbed, Costs (pure r) v₁ (1 + 0) := fun r => (costs_pure r v₁).mono (by omega)
    cases up with
    | child log => exact hwrite _
    | collapsed log => exact hfree _
    | gone =>
      simp only
      split_ifs
      · exact hfree _
      · exact hfree _
      · exact hwrite _

theorem freeNodes_nodeSize : ∀ (addrs : List Nat) (v : Vol),
    (freeNodes sb v addrs).sm.nodeSize = v.sm.nodeSize := by
  intro addrs
  induction addrs with
  | nil => intro v; rfl
  | cons a addrs ih =>
    intro v
    have hone : (freeNode sb v a).sm.nodeSize = v.sm.nodeSize := by simp [freeNode]
    exact (ih (freeNode sb v a)).trans hone

theorem costs_tryCollapse (root : Nat) (hns : 0 < sb.nodeSize) (hv : v.sm.nodeSize = sb.nodeSize)
    (hroom : 0 < v.sm.blocks) : Costs (tryCollapseTwoLeafRoot sb root) v 0 := by
  have hsame : ∀ v : Vol, ∃ a v', (.ok root v : EStateM.Result Err Vol Nat) = .ok a v' ∧
      v.sm.blocks ≤ v'.sm.blocks + 0 ∧ v'.sm.nodeSize = v.sm.nodeSize :=
    fun v => ⟨root, v, rfl, le_rfl, rfl⟩
  unfold Costs
  simp only [tryCollapseTwoLeafRoot]
  split
  · next l r _ =>
    split
    · next hdr left _ right _ _ =>
      split_ifs
      · exact hsame v
      · split
        · exact hsame v
        · next merged _ =>
          have hw : Costs (wrapErr (.wrap "" []) (writeCowNode sb (.leaf hdr merged))) v 1 :=
            costs_write "" _ (by omega) hroom
          obtain ⟨a, v₁, hrun, hb, hns₁⟩ := hw
          rw [run_wrapErr] at hrun
          rw [hrun]
          have hfreed := freeNodes_blocks [root, l.child, r.child] v₁ hns (by omega)
          refine ⟨a, _, rfl, ?_, ?_⟩
          · simp only [List.length_cons, List.length_nil] at hfreed
            omega
          · rw [freeNodes_nodeSize, hns₁]
    · exact hsame v
  · exact hsame v

theorem costs_cowLeaf (path : Trace) (items : List LeafItem) (hns : 0 < v.sm.nodeSize)
    (hroom : 0 < v.sm.blocks) : Costs (cowLeaf sb path items) v 1 := by
  unfold cowLeaf
  split_ifs
  · exact (costs_pure _ v).mono (Nat.zero_le 1)
  · exact costs_bind (p := 0) (costs_write _ _ hns hroom) fun a v' _ _ _ => costs_pure _ v'

/-- The root is never dropped. -/
theorem top_not_gone {path : Trace} {items : List LeafItem} {v₁ v₂ : Vol} {start top : Climbed}
    (hleaf : cowLeaf sb path items v = .ok start v₁)
    (hclimb : cowClimb sb true path.inner start v₁ = .ok top v₂) : top ≠ .gone := by
  cases hin : path.inner with
  | nil =>
    simp only [cowLeaf, hin, List.isEmpty_nil, Bool.not_true, Bool.and_false, Bool.false_eq_true,
      ↓reduceIte, run_bind, run_pure] at hleaf
    obtain ⟨a, _, -, rfl, -⟩ := hleaf
    rw [hin] at hclimb
    simp only [cowClimb, run_pure] at hclimb
    rw [← hclimb.1]
    rintro ⟨⟩
  | cons pe deeper =>
    rw [hin, cowClimb, run_bind] at hclimb
    obtain ⟨up, v₃, -, hclimb⟩ := hclimb
    cases up with
    | child log =>
      simp only [run_bind, run_pure] at hclimb
      obtain ⟨_, _, -, rfl, -⟩ := hclimb
      rintro ⟨⟩
    | collapsed log =>
      simp only [run_pure] at hclimb
      rw [← hclimb.1]
      rintro ⟨⟩
    | gone =>
      simp only [Bool.not_true, Bool.and_false, Bool.false_eq_true, ↓reduceIte] at hclimb
      split_ifs at hclimb
      · simp only [run_pure] at hclimb
        rw [← hclimb.1]
        rintro ⟨⟩
      · simp only [run_bind, run_pure] at hclimb
        obtain ⟨_, _, -, rfl, -⟩ := hclimb
        rintro ⟨⟩

/-- **A mutation with room for the path succeeds**, and leaves as much room. -/
theorem cowMutate_progress {h : Nat} {t : LTree h} {new : List LeafItem}
    {fn : List LeafItem → Except Err (List LeafItem)} (ht : TreeOk sb v t)
    (hd : h ≤ maxBtreeDepth) (hfn : fn (STree.leafAt k h (shape h t)) = .ok new)
    (hroom : h + 1 ≤ v.sm.blocks) :
    ∃ r v', cowMutate sb (addr h t) k fn v = .ok r v' ∧ v.sm.blocks ≤ v'.sm.blocks := by
  have hpos : 0 < sb.nodeSize := lt_of_lt_of_le (by decide) ht.vol.nodeSize_ge
  have hvns := ht.vol.sm_nodeSize
  have hpath := tracePath_held hpos ht.held ht.apart ht.full k
  rw [if_pos hd] at hpath
  have hlen := trace_inner_length k h t ht.full
  have hitems := trace_items k h t ht.full
  generalize trace k h t = path at hpath hlen hitems
  -- the leaf and the climb take at most one block a level, and the release returns as many
  have hfirst : Costs (cowLeaf sb path new) v 1 := costs_cowLeaf path new (by omega) (by omega)
  obtain ⟨start, v₁, hleaf, hb₁, hns₁⟩ := hfirst
  have hup : Costs (cowClimb sb true path.inner start) v₁ path.inner.length :=
    costs_cowClimb start path.inner true v₁ (by omega) (by omega)
  obtain ⟨top, v₂, hclimb, hb₂, hns₂⟩ := hup
  have hfreed := freeNodes_blocks path.oldNodes v₂ hpos (by omega)
  have hold : path.oldNodes.length = h + 1 := by simp [Trace.oldNodes, hlen]
  have hns₃ : (freeNodes sb v₂ path.oldNodes).sm.nodeSize = sb.nodeSize := by
    rw [freeNodes_nodeSize]
    omega
  have hend : Costs (cowFinish sb path.leafHdr top) (freeNodes sb v₂ path.oldNodes) 0 := by
    cases top with
    | child log => exact costs_tryCollapse log hpos hns₃ (by omega)
    | collapsed log => exact costs_pure _ _
    | gone => exact absurd rfl (top_not_gone hleaf hclimb)
  obtain ⟨r, v', hrun, hb₃, -⟩ := hend
  refine ⟨r, v', ?_, by omega⟩
  rw [cowMutate, run_bind]
  refine ⟨v, v, run_get.mpr ⟨rfl, rfl⟩, run_bind.mpr ⟨path, v, ?_, run_bind.mpr ⟨new, v, ?_,
    run_bind.mpr ⟨start, v₁, hleaf, run_bind.mpr ⟨top, v₂, hclimb, run_bind.mpr ⟨⟨⟩, _, ?_, hrun⟩⟩⟩⟩⟩⟩
  · rw [hpath]
    exact run_fromExcept.mpr ⟨rfl, rfl⟩
  · rw [hitems, hfn]
    exact run_fromExcept.mpr ⟨rfl, rfl⟩
  · exact run_modify.mpr rfl

end Btrfs
