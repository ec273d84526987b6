/-
  Btrfs/CowSpec.lean
  ==================
  **Copy-on-write refines the edit of the search tree.**

  The climb of `cowMutate` copies the path of a located tree; forgetting the places, it
  performs `STree.edit`.  The climb of `cowInsertSplit` performs `STree.cut`.  Both are
  proved by induction on the height of the tree, following the recursion of the climb
  over the path.  What is carried along is which bytes the new tree may occupy: those of
  the old tree off the path, and bytes of a set `F` that was free when the mutation began.
-/
import Btrfs.Plant

namespace Btrfs

open Lib LTree

variable {sb : Superblock} {k : Key} {new : List LeafItem} {F : Set Nat}

/-! ## 1. The old path -/

theorem oldNodes_cons (t : Trace) (pe : PathEntry) :
    Trace.oldNodes { t with inner := pe :: t.inner } = t.oldNodes ++ [pe.logAddr] := by
  simp [Trace.oldNodes]

/-- The blocks released after a mutation are those of the path, each once. -/
theorem oldNodes_spec (k : Key) : ∀ (h : Nat) (t : LTree h), Apart sb h t →
    STree.Full h (shape h t) →
    ((trace k h t).oldNodes.Pairwise fun a b => Disjoint (blk sb a) (blk sb b)) ∧
    {p | ∃ a ∈ (trace k h t).oldNodes, p ∈ blk sb a} = pathFoot sb k h t := by
  intro h
  induction h with
  | zero =>
    intro (b : LeafBlk) _ _
    simp [trace, Trace.oldNodes, pathFoot]
  | succ h ih =>
    intro (b : NodeBlk (LTree h)) hap hfull
    obtain ⟨hne, hfk⟩ := shape_full_kids hfull
    obtain ⟨A, c, B, hf⟩ := focus_isSome Kid.sep k hne
    have hc : c ∈ b.kids := focus_mem hf
    obtain ⟨hpw, hset⟩ := ih c.sub (hap.2 c hc).2 (hfk c hc)
    simp only [trace, hf, oldNodes_cons, pathFoot]
    constructor
    · rw [List.pairwise_append]
      refine ⟨hpw, by simp, ?_⟩
      intro a ha d hd
      rw [List.mem_singleton] at hd
      subst hd
      -- a block of the path below lies in the child's subtree
      have hsub : blk sb a ⊆ foot sb h c.sub := by
        refine Set.Subset.trans ?_ (pathFoot_subset k h c.sub)
        rw [← hset]
        intro p hp
        exact ⟨a, ha, hp⟩
      exact ((hap.2 c hc).1.mono_right hsub).symm
    · ext p
      have hp := Set.ext_iff.mp hset p
      simp only [Set.mem_ofPred_eq] at hp
      simp only [List.mem_append, List.mem_singleton, Set.mem_ofPred_eq, Set.mem_union, ← hp,
        or_and_right, exists_or, exists_eq_left]
      exact or_comm

/-- What a node keeps of its subtrees when one on the path is replaced stays off the path. -/
theorem kept_subset {h : Nat} {b : NodeBlk (LTree h)} {A B C : List (Kid (LTree h))}
    {c : Kid (LTree h)} {a : Nat} (hap : Apart sb (h + 1) b)
    (hf : focus Kid.sep k b.kids = some (A, c, B)) (ha : blk sb a ⊆ F)
    (hC : feet sb h C ⊆ (foot sb h c.sub \ pathFoot sb k h c.sub) ∪ F) :
    blk sb a ∪ feet sb h (A ++ C ++ B) ⊆
      (foot sb (h + 1) b \ pathFoot sb k (h + 1) b) ∪ F := by
  obtain ⟨hl, -⟩ := focus_eq_some hf
  obtain ⟨hpw, hkids⟩ := hap
  have hroot : Disjoint (blk sb b.addr) (feet sb h (A ++ c :: B)) := by
    rw [← hl, disjoint_feet]
    intro d hd
    exact (hkids d hd).1
  rw [hl] at hpw
  obtain ⟨-, hcB, hAc⟩ := List.pairwise_append.mp hpw
  have hcB := (List.pairwise_cons.mp hcB).1
  rw [feet_append, feet_cons] at hroot
  simp only [Set.disjoint_left, Set.mem_union, not_or] at hroot
  intro p hp
  have hpath : pathFoot sb k (h + 1) b = blk sb b.addr ∪ pathFoot sb k h c.sub := by
    simp only [pathFoot, hf]
  have hfoot : foot sb (h + 1) b =
      blk sb b.addr ∪ (feet sb h A ∪ (foot sb h c.sub ∪ feet sb h B)) := by
    rw [foot_node, hl, feet_append, feet_cons]
  rw [hpath, hfoot]
  rw [feet_append, feet_append] at hp
  rcases hp with hp | (hp | hp) | hp
  · exact Or.inr (ha hp)
  · left
    refine ⟨Or.inr (Or.inl hp), ?_⟩
    rintro (hb | hb)
    · exact (hroot hb).1 hp
    · obtain ⟨d, hd, hpd⟩ := hp
      exact Set.disjoint_left.mp (hAc d hd c (by simp)) hpd (pathFoot_subset k h c.sub hb)
  · rcases hC hp with ⟨hpc, hpp⟩ | hpF
    · left
      refine ⟨Or.inr (Or.inr (Or.inl hpc)), ?_⟩
      rintro (hb | hb)
      · exact (hroot hb).2.1 hpc
      · exact hpp hb
    · exact Or.inr hpF
  · left
    refine ⟨Or.inr (Or.inr (Or.inr hp)), ?_⟩
    rintro (hb | hb)
    · exact (hroot hb).2.2 hp
    · obtain ⟨d, hd, hpd⟩ := hp
      exact Set.disjoint_left.mp (hcB d hd) (pathFoot_subset k h c.sub hb) hpd

/-! ## 2. The climb of an edit -/

section entry

variable {h : Nat} {b : NodeBlk (LTree h)} {A B : List (Kid (LTree h))} {c : Kid (LTree h)}

/-- The path entry of a node whose child `c`, after `A`, was followed. -/
def entry (b : NodeBlk (LTree h)) (A : List (Kid (LTree h))) : PathEntry :=
  ⟨b.addr, b.hdr, h, b.kids.map (ptr h), A.length⟩

theorem trace_inner_succ (hf : focus Kid.sep k b.kids = some (A, c, B)) :
    (trace k (h + 1) b).inner = entry b A :: (trace k h c.sub).inner := by
  simp only [trace, hf, entry]

theorem entry_remove (hl : b.kids = A ++ c :: B) :
    internalRemoveKeyPtr (entry b A).ptrs (entry b A).childIdx = (A ++ B).map (ptr h) := by
  simp [internalRemoveKeyPtr, entry, hl, List.eraseIdx_append_of_length_le]

theorem modify_middle {α : Type} (f : α → α) (A : List α) (a : α) (B : List α) :
    (A ++ a :: B).modify A.length f = A ++ f a :: B := by
  induction A with
  | nil => rfl
  | cons x A ih => simpa using ih

theorem entry_setChild (hl : b.kids = A ++ c :: B) (t : LTree h) :
    (entry b A).setChild sb (addr h t) =
      (A ++ ⟨c.sep, sb.generation + 1, t⟩ :: B).map (ptr h) := by
  have hmid := modify_middle
    (fun p : KeyPtr => { p with child := addr h t, gen := sb.generation + 1 })
    (A.map (ptr h)) (ptr h c) (B.map (ptr h))
  simp only [List.length_map] at hmid
  simp only [PathEntry.setChild, entry, hl, List.map_append, List.map_cons, hmid]
  rfl

theorem entry_write {ptrs : List KeyPtr} {v v' : Vol} {a : Nat} (hok : VolOk sb v)
    (hw : (entry b A).write sb ptrs v = .ok a v') : Wrote sb (.internal b.hdr h ptrs) v a v' :=
  writeCowNode_ok hok (run_wrapErr.mp hw)

end entry

/-- What the leaf step hands to the climb: nothing is left of the leaf, or a new leaf is in
    place. -/
inductive Start (sb : Superblock) (v : Vol) (F : Set Nat) (new : List LeafItem) : Climbed → Prop
  | gone (hnew : new = []) : Start sb v F new .gone
  | leaf (b : LeafBlk) (hitems : b.items = new) (hne : new ≠ []) (hp : Planted sb v 0 b)
      (hsub : blk sb b.addr ⊆ F) : Start sb v F new (.child b.addr)

/-- What the climb reaches at a subtree: it is gone, or a copy with the edit is in place. -/
inductive Outcome (sb : Superblock) (v : Vol) (F : Set Nat) (k : Key) (new : List LeafItem)
    {h : Nat} (t : LTree h) : Climbed → Prop
  | gone (he : STree.edit k new h (shape h t) = none) : Outcome sb v F k new t .gone
  | child (t' : LTree h) (he : STree.edit k new h (shape h t) = some (shape h t'))
      (hp : Planted sb v h t')
      (hsub : foot sb h t' ⊆ (foot sb h t \ pathFoot sb k h t) ∪ F) :
      Outcome sb v F k new t (.child (addr h t'))

/-- A tree that a climb works on: held, and clear of the bytes the climb may write. -/
structure Source (sb : Superblock) (v : Vol) (F : Set Nat) {h : Nat} (t : LTree h) : Prop where
  ok : VolOk sb v
  free_subset : v.sm.free ⊆ F
  clear : Disjoint (foot sb h t) F
  held : Held sb v.dev h t
  apart : Apart sb h t
  full : STree.Full h (shape h t)

theorem Source.kid {v : Vol} {h : Nat} {b : NodeBlk (LTree h)} (hs : Source sb v F (h := h + 1) b)
    {c : Kid (LTree h)} (hc : c ∈ b.kids) : Source sb v F c.sub :=
  ⟨hs.ok, hs.free_subset, hs.clear.mono_left (kid_foot_subset hc), (hs.held.2 c hc).2,
    (hs.apart.2 c hc).2, (shape_full_kids hs.full).2 c hc⟩

theorem Source.forest {v : Vol} {h : Nat} {b : NodeBlk (LTree h)}
    (hs : Source sb v F (h := h + 1) b) : Forest sb v h b.kids :=
  Forest.of_held hs.held hs.apart (hs.clear.mono_right hs.free_subset)

theorem Source.feet_clear {v : Vol} {h : Nat} {b : NodeBlk (LTree h)}
    (hs : Source sb v F (h := h + 1) b) : Disjoint (feet sb h b.kids) F :=
  hs.clear.mono_left (by rw [foot_node]; exact Set.subset_union_right)

/-- The subtrees of a node with new ones in the place of the routed one. -/
theorem Source.replaced {v v₁ : Vol} {h : Nat} {b : NodeBlk (LTree h)}
    {A B C : List (Kid (LTree h))} {c : Kid (LTree h)}
    (hs : Source sb v F (h := h + 1) b) (hf : focus Kid.sep k b.kids = some (A, c, B))
    (hg : Grew sb v v₁) (hC : Forest sb v₁ h C)
    (hsub : feet sb h C ⊆ (foot sb h c.sub \ pathFoot sb k h c.sub) ∪ F) :
    Forest sb v₁ h (A ++ C ++ B) := by
  obtain ⟨hl, -⟩ := focus_eq_some hf
  have hforest := hs.forest
  have hclear := hs.feet_clear
  rw [hl] at hforest hclear
  have hsub' : feet sb h C ⊆ foot sb h c.sub ∪ F :=
    hsub.trans (Set.union_subset_union_left F Set.sdiff_subset)
  exact hforest.replace hg hC hsub' hclear

/-- Writing a copy of a node with new subtrees in the place of the routed one. -/
theorem Source.write_copy {v v₁ v₂ : Vol} {h : Nat} {b : NodeBlk (LTree h)}
    {A B C : List (Kid (LTree h))} {c : Kid (LTree h)} {a : Nat}
    (hs : Source sb v F (h := h + 1) b) (hf : focus Kid.sep k b.kids = some (A, c, B))
    (hg : Grew sb v v₁) (hC : Forest sb v₁ h C)
    (hsub : feet sb h C ⊆ (foot sb h c.sub \ pathFoot sb k h c.sub) ∪ F)
    (hw : Wrote sb (.internal b.hdr h ((A ++ C ++ B).map (ptr h))) v₁ a v₂) :
    Grew sb v v₂ ∧
    Planted sb v₂ (h + 1) (⟨a, ⟨a, sb.generation + 1⟩, A ++ C ++ B⟩ : NodeBlk (LTree h)) ∧
    foot sb (h + 1) (⟨a, ⟨a, sb.generation + 1⟩, A ++ C ++ B⟩ : NodeBlk (LTree h)) ⊆
      (foot sb (h + 1) b \ pathFoot sb k (h + 1) b) ∪ F := by
  have hnew := hs.replaced hf hg hC hsub
  have ha : blk sb a ⊆ F := hw.was_free.trans (hg.free_subset.trans hs.free_subset)
  exact ⟨hg.trans hw.grew, hnew.plant hw, kept_subset hs.apart hf ha hsub⟩

/-- **The climb performs the edit**: below the root. -/
theorem cowClimb_spec : ∀ (h : Nat) (t : LTree h) (v v' : Vol) (start r : Climbed),
    Source sb v F t → Start sb v F new start →
    cowClimb sb false (trace k h t).inner start v = .ok r v' →
    Grew sb v v' ∧ Outcome sb v' F k new t r := by
  intro h
  induction h with
  | zero =>
    intro t v v' start r hs hstart hrun
    simp only [trace, cowClimb, run_pure] at hrun
    obtain ⟨rfl, rfl⟩ := hrun
    refine ⟨Grew.refl hs.ok, ?_⟩
    cases hstart with
    | gone hnew => exact .gone (by simp [STree.edit, hnew])
    | leaf b hitems hne hp hsub =>
      refine Outcome.child (h := 0) (t := t) b ?_ hp ?_
      · subst hitems
        simp [STree.edit, hne, shape]
      · exact hsub.trans Set.subset_union_right
  | succ h ih =>
    intro (b : NodeBlk (LTree h)) v v' start r hs hstart hrun
    obtain ⟨hne, hfk⟩ := shape_full_kids hs.full
    obtain ⟨A, c, B, hf⟩ := focus_isSome Kid.sep k hne
    obtain ⟨hl, -⟩ := focus_eq_some hf
    have hc : c ∈ b.kids := focus_mem hf
    rw [trace_inner_succ hf, cowClimb] at hrun
    obtain ⟨r₁, v₁, hrun₁, hrun⟩ := run_bind.mp hrun
    obtain ⟨hg, hout⟩ := ih c.sub v v₁ start r₁ (hs.kid hc) hstart hrun₁
    have hfs := focus_shape hf
    cases hout with
    | gone he =>
      simp only [entry_remove hl] at hrun
      by_cases hAB : A ++ B = []
      · -- the node loses its last child and is dropped too
        simp only [hAB, List.map_nil, List.isEmpty_nil, Bool.not_false, Bool.and_self, ↓reduceIte,
          run_pure] at hrun
        obtain ⟨rfl, rfl⟩ := hrun
        rw [List.append_eq_nil_iff] at hAB
        refine ⟨hg, .gone ?_⟩
        simp only [shape, STree.edit, hfs, he, hAB.1, hAB.2, List.map_nil, List.append_nil,
          List.isEmpty_nil, ↓reduceIte]
      · have hemp : ((A ++ B).map (ptr h)).isEmpty = false := by
          simpa [List.isEmpty_eq_false_iff] using hAB
        simp only [hemp, Bool.false_and, Bool.false_eq_true, ↓reduceIte] at hrun
        obtain ⟨a, v₂, hw, hrun⟩ := run_bind.mp hrun
        simp only [run_pure] at hrun
        obtain ⟨rfl, rfl⟩ := hrun
        have hw := entry_write hg.ok hw
        have hcopy := hs.write_copy (C := []) hf hg ⟨by simp, by simp⟩ (by simp) (by simpa using hw)
        simp only [List.append_nil] at hcopy
        refine ⟨hcopy.1, Outcome.child (h := h + 1) (t := b) _ ?_ hcopy.2.1 hcopy.2.2⟩
        have hne' : ¬ ((A.map fun c => (c.sep, shape h c.sub)) ++
            B.map fun c => (c.sep, shape h c.sub)) = [] := by
          simpa using hAB
        simp only [shape, STree.edit, hfs, he, List.isEmpty_iff, hne', ↓reduceIte, List.map_append]
    | child t' he hp hsub =>
      simp only [entry_setChild hl] at hrun
      obtain ⟨a, v₂, hw, hrun⟩ := run_bind.mp hrun
      simp only [run_pure] at hrun
      obtain ⟨rfl, rfl⟩ := hrun
      have hw := entry_write hg.ok hw
      have hC : Forest sb v₁ h [(⟨c.sep, sb.generation + 1, t'⟩ : Kid (LTree h))] :=
        Forest.cons_iff.mpr ⟨hp, ⟨by simp, by simp⟩, by simp⟩
      have hcopy := hs.write_copy hf hg hC (by simpa using hsub) (by simpa using hw)
      refine ⟨hcopy.1, Outcome.child (h := h + 1) (t := b) _ ?_ hcopy.2.1 hcopy.2.2⟩
      simp only [shape, STree.edit, hfs, he, List.map_append, List.map_cons,
        List.append_assoc, List.singleton_append]

/-- What the climb reaches at the root: a copy of the root, or the child the root gave way to. -/
inductive RootOutcome (sb : Superblock) (v : Vol) (F : Set Nat) (k : Key) (new : List LeafItem)
    {h : Nat} (t : LTree h) : Climbed → Prop
  | child (t' : LTree h) (hm : STree.mutate k new h (shape h t) = ⟨h, shape h t'⟩)
      (hway : STree.givesWay k new h (shape h t) = false) (hp : Planted sb v h t')
      (hsub : foot sb h t' ⊆ (foot sb h t \ pathFoot sb k h t) ∪ F) :
      RootOutcome sb v F k new t (.child (addr h t'))
  | collapsed (m : Nat) (t' : LTree m) (hm : STree.mutate k new h (shape h t) = ⟨m, shape m t'⟩)
      (hway : STree.givesWay k new h (shape h t) = true) (hp : Planted sb v m t')
      (hsub : foot sb m t' ⊆ (foot sb h t \ pathFoot sb k h t) ∪ F) :
      RootOutcome sb v F k new t (.collapsed (addr m t'))

/-- **The climb performs the edit**: at the root of a tree with internal nodes. -/
theorem cowClimb_root {h : Nat} {b : NodeBlk (LTree h)} {v v' : Vol} {start r : Climbed}
    (hs : Source sb v F (h := h + 1) b) (hstart : Start sb v F new start)
    (hrun : cowClimb sb true (trace k (h + 1) b).inner start v = .ok r v') :
    Grew sb v v' ∧ RootOutcome sb v' F k new (h := h + 1) b r := by
  obtain ⟨hne, hfk⟩ := shape_full_kids hs.full
  obtain ⟨A, c, B, hf⟩ := focus_isSome Kid.sep k hne
  obtain ⟨hl, -⟩ := focus_eq_some hf
  have hc : c ∈ b.kids := focus_mem hf
  rw [trace_inner_succ hf, cowClimb] at hrun
  obtain ⟨r₁, v₁, hrun₁, hrun⟩ := run_bind.mp hrun
  obtain ⟨hg, hout⟩ := cowClimb_spec h c.sub v v₁ start r₁ (hs.kid hc) hstart hrun₁
  have hfs := focus_shape hf
  cases hout with
  | gone he =>
    simp only [entry_remove hl, Bool.not_true, Bool.and_false, Bool.false_eq_true, ↓reduceIte,
      Bool.true_and, List.length_map, beq_iff_eq] at hrun
    by_cases hone : (A ++ B).length = 1
    · -- one child is left, and it takes the root's place
      rw [if_pos hone] at hrun
      simp only [run_pure] at hrun
      obtain ⟨rfl, rfl⟩ := hrun
      obtain ⟨q, hq⟩ := List.length_eq_one_iff.mp hone
      have hqk : q ∈ b.kids := by
        have : q ∈ A ++ B := by rw [hq]; simp
        rw [hl]
        rcases List.mem_append.mp this with hm | hm <;> simp [hm]
      have hchild : childAt ((A ++ B).map (ptr h)) 0 = addr h q.sub := by
        simp [hq, childAt, ptr]
      rw [hchild]
      have hmap : (A.map fun c => (c.sep, shape h c.sub)) ++
          (B.map fun c => (c.sep, shape h c.sub)) = [(q.sep, shape h q.sub)] := by
        rw [← List.map_append, hq]
        rfl
      refine ⟨hg, RootOutcome.collapsed h q.sub ?_ ?_ ?_ ?_⟩
      · simp only [shape, STree.mutate, hfs, he, hmap]
      · simp only [shape, STree.givesWay, hfs, he, hmap]
        rfl
      · exact ((hs.forest.planted q hqk).grew hg)
      · intro p hp
        left
        refine ⟨kid_foot_subset hqk hp, ?_⟩
        -- the surviving child is a sibling of the routed one
        have hpath : pathFoot sb k (h + 1) b = blk sb b.addr ∪ pathFoot sb k h c.sub := by
          simp only [pathFoot, hf]
        rw [hpath]
        rintro (hb | hb)
        · exact Set.disjoint_left.mp (hs.apart.2 q hqk).1 hb hp
        · have hpw := hs.apart.1
          rw [hl] at hpw
          obtain ⟨-, hcB, hAc⟩ := List.pairwise_append.mp hpw
          have hmem : q ∈ A ++ B := by rw [hq]; simp
          have hpc := pathFoot_subset k h c.sub hb
          rcases List.mem_append.mp hmem with hqA | hqB
          · exact Set.disjoint_left.mp (hAc q hqA c (by simp)) hp hpc
          · exact Set.disjoint_left.mp ((List.pairwise_cons.mp hcB).1 q hqB) hpc hp
    · rw [if_neg hone] at hrun
      obtain ⟨a, v₂, hw, hrun⟩ := run_bind.mp hrun
      simp only [run_pure] at hrun
      obtain ⟨rfl, rfl⟩ := hrun
      have hw := entry_write hg.ok hw
      have hcopy := hs.write_copy (C := []) hf hg ⟨by simp, by simp⟩ (by simp) (by simpa using hw)
      simp only [List.append_nil] at hcopy
      refine ⟨hcopy.1, RootOutcome.child (h := h + 1) (t := b) _ ?_ ?_ hcopy.2.1 hcopy.2.2⟩
      · simp only [shape, STree.mutate, hfs, he, List.map_append]
        split
        · next q hq =>
          have hlen := congrArg List.length hq
          simp only [List.length_append, List.length_map, List.length_singleton] at hlen
          simp only [List.length_append] at hone
          exact absurd hlen hone
        · rfl
      · simp only [shape, STree.givesWay, hfs, he, Option.isNone_none, Bool.true_and,
          beq_eq_false_iff_ne, List.length_append, List.length_map]
        simpa using hone
  | child t' he hp hsub =>
    simp only [entry_setChild hl] at hrun
    obtain ⟨a, v₂, hw, hrun⟩ := run_bind.mp hrun
    simp only [run_pure] at hrun
    obtain ⟨rfl, rfl⟩ := hrun
    have hw := entry_write hg.ok hw
    have hC : Forest sb v₁ h [(⟨c.sep, sb.generation + 1, t'⟩ : Kid (LTree h))] :=
      Forest.cons_iff.mpr ⟨hp, ⟨by simp, by simp⟩, by simp⟩
    have hcopy := hs.write_copy hf hg hC (by simpa using hsub) (by simpa using hw)
    refine ⟨hcopy.1, RootOutcome.child (h := h + 1) (t := b) _ ?_ ?_ hcopy.2.1 hcopy.2.2⟩
    · simp only [shape, STree.mutate, hfs, he, List.map_append, List.map_cons,
        List.append_assoc, List.singleton_append]
    · simp only [shape, STree.givesWay, hfs, he, Option.isNone_some, Bool.false_and]

end Btrfs
