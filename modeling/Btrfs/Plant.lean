/-
  Btrfs/Plant.lean
  ================
  **Writing new nodes beside an old tree** — what a copy-on-write step keeps.

  Between the first new block and the release of the old path a mutation only writes to
  blocks that were free (`Grew`), so everything outside the free list still reads as it
  did.  A subtree is `Planted` when it is on the device and clear of the free list; a
  list of planted subtrees that do not overlap is a `Forest`, and writing an internal
  node over a forest plants the node.
-/
import Btrfs.Trace

namespace Btrfs

open Lib LTree

variable {sb : Superblock} {v v' v'' : Vol}

/-! ## 1. Growth -/

/-- From `v` to `v'` only free blocks were written, and space was only taken. -/
structure Grew (sb : Superblock) (v v' : Vol) : Prop where
  ok : VolOk sb v'
  free_subset : v'.sm.free ⊆ v.sm.free
  frame : ∀ a, Disjoint (blk sb a) v.sm.free → readNode sb v'.dev a = readNode sb v.dev a

theorem Grew.refl (h : VolOk sb v) : Grew sb v v := ⟨h, subset_rfl, fun _ _ => rfl⟩

theorem Grew.trans (h : Grew sb v v') (h' : Grew sb v' v'') : Grew sb v v'' := by
  refine ⟨h'.ok, h'.free_subset.trans h.free_subset, ?_⟩
  intro a ha
  rw [h'.frame a (ha.mono_right h.free_subset), h.frame a ha]

theorem Wrote.grew {n : Node} {a : Nat} (h : Wrote sb n v a v') : Grew sb v v' := by
  refine ⟨h.ok, ?_, ?_⟩
  · rw [h.free_eq]
    exact Set.sdiff_subset
  · intro b hb
    exact h.frame b (hb.mono_right h.was_free)

theorem Wrote.not_free {n : Node} {a : Nat} (h : Wrote sb n v a v') :
    Disjoint (blk sb a) v'.sm.free := by
  rw [h.free_eq]
  exact Set.disjoint_sdiff_right

/-! ## 2. Planted trees and forests -/

/-- The tree is on the device, clear of the free list, and its nodes do not overlap. -/
structure Planted (sb : Superblock) (v : Vol) (h : Nat) (t : LTree h) : Prop where
  addr_ne : addr h t ≠ 0
  held : Held sb v.dev h t
  apart : Apart sb h t
  live : Disjoint (foot sb h t) v.sm.free

theorem Planted.grew {h : Nat} {t : LTree h} (hp : Planted sb v h t) (hg : Grew sb v v') :
    Planted sb v' h t :=
  ⟨hp.addr_ne, hp.held.frame hg.frame h t hp.live, hp.apart, hp.live.mono_right hg.free_subset⟩

/-- The bytes of a list of subtrees. -/
def feet (sb : Superblock) (h : Nat) (K : List (Kid (LTree h))) : Set Nat :=
  {p | ∃ c ∈ K, p ∈ foot sb h c.sub}

section feet

variable {h : Nat}

@[simp] theorem feet_nil : feet sb h [] = ∅ := by
  ext p; simp [feet]

@[simp] theorem feet_cons (c : Kid (LTree h)) (K : List (Kid (LTree h))) :
    feet sb h (c :: K) = foot sb h c.sub ∪ feet sb h K := by
  ext p; simp [feet]

@[simp] theorem feet_append (K L : List (Kid (LTree h))) :
    feet sb h (K ++ L) = feet sb h K ∪ feet sb h L := by
  ext p; simp [feet, or_and_right, exists_or]

theorem foot_node (b : NodeBlk (LTree h)) :
    foot sb (h + 1) b = blk sb b.addr ∪ feet sb h b.kids := rfl

theorem disjoint_feet {S : Set Nat} {K : List (Kid (LTree h))} :
    Disjoint S (feet sb h K) ↔ ∀ c ∈ K, Disjoint S (foot sb h c.sub) := by
  simp only [Set.disjoint_left, feet, Set.mem_ofPred_eq, not_exists, not_and]
  constructor
  · intro hd c hc p hp
    exact hd hp c hc
  · intro hd p hp c hc
    exact hd c hc hp

end feet

/-- Planted subtrees that do not overlap each other. -/
structure Forest (sb : Superblock) (v : Vol) (h : Nat) (K : List (Kid (LTree h))) : Prop where
  planted : ∀ c ∈ K, Planted sb v h c.sub
  apart : K.Pairwise fun c d => Disjoint (foot sb h c.sub) (foot sb h d.sub)

namespace Forest

variable {h : Nat} {K A B : List (Kid (LTree h))} {c : Kid (LTree h)}

theorem grew (hf : Forest sb v h K) (hg : Grew sb v v') : Forest sb v' h K :=
  ⟨fun c hc => (hf.planted c hc).grew hg, hf.apart⟩

theorem live (hf : Forest sb v h K) : Disjoint (feet sb h K) v.sm.free := by
  rw [disjoint_comm, disjoint_feet]
  intro c hc
  exact (hf.planted c hc).live.symm

theorem sublist (hf : Forest sb v h K) (hs : A.Sublist K) : Forest sb v h A :=
  ⟨fun c hc => hf.planted c (hs.subset hc), hf.apart.sublist hs⟩

theorem append_iff :
    Forest sb v h (A ++ B) ↔
      Forest sb v h A ∧ Forest sb v h B ∧ Disjoint (feet sb h A) (feet sb h B) := by
  constructor
  · intro hf
    have hpw := List.pairwise_append.mp hf.apart
    refine ⟨hf.sublist (List.sublist_append_left A B), hf.sublist (List.sublist_append_right A B), ?_⟩
    rw [disjoint_feet]
    intro d hd
    rw [disjoint_comm, disjoint_feet]
    intro c hc
    exact (hpw.2.2 c hc d hd).symm
  · rintro ⟨hA, hB, hd⟩
    refine ⟨?_, List.pairwise_append.mpr ⟨hA.apart, hB.apart, ?_⟩⟩
    · intro c hc
      rcases List.mem_append.mp hc with hc | hc
      · exact hA.planted c hc
      · exact hB.planted c hc
    · intro c hc d hdB
      have hdA := disjoint_feet.mp hd d hdB
      exact (disjoint_feet.mp hdA.symm c hc).symm

theorem cons_iff :
    Forest sb v h (c :: B) ↔
      Planted sb v h c.sub ∧ Forest sb v h B ∧ Disjoint (foot sb h c.sub) (feet sb h B) := by
  constructor
  · intro hf
    have hpw := List.pairwise_cons.mp hf.apart
    refine ⟨hf.planted c (by simp), hf.sublist (List.sublist_cons_self c B), ?_⟩
    rw [disjoint_feet]
    exact hpw.1
  · rintro ⟨hc, hB, hd⟩
    refine ⟨?_, List.pairwise_cons.mpr ⟨disjoint_feet.mp hd, hB.apart⟩⟩
    intro d hdm
    rcases List.mem_cons.mp hdm with rfl | hdm
    · exact hc
    · exact hB.planted d hdm

/-- The children of a held node. -/
theorem of_held {b : NodeBlk (LTree h)} (ht : Held sb v.dev (h + 1) b) (hap : Apart sb (h + 1) b)
    (hlive : Disjoint (foot sb (h + 1) b) v.sm.free) : Forest sb v h b.kids := by
  refine ⟨?_, hap.1⟩
  intro c hc
  exact ⟨(ht.2 c hc).1, (ht.2 c hc).2, (hap.2 c hc).2, hlive.mono_left (kid_foot_subset hc)⟩

/-- Put new subtrees in the place of one: they may take its bytes and bytes of `F`, which the
    others stay clear of. -/
theorem replace {F : Set Nat} {C : List (Kid (LTree h))} (hf : Forest sb v h (A ++ c :: B))
    (hg : Grew sb v v') (hC : Forest sb v' h C) (hsub : feet sb h C ⊆ foot sb h c.sub ∪ F)
    (hF : Disjoint (feet sb h (A ++ c :: B)) F) : Forest sb v' h (A ++ C ++ B) := by
  obtain ⟨hA, hcB, hAcB⟩ := append_iff.mp hf
  obtain ⟨-, hB, hcB⟩ := cons_iff.mp hcB
  rw [feet_cons, Set.disjoint_union_right] at hAcB
  rw [feet_append, feet_cons, Set.disjoint_union_left, Set.disjoint_union_left] at hF
  have hAC : Disjoint (feet sb h A) (feet sb h C) := by
    refine Disjoint.mono_right hsub ?_
    rw [Set.disjoint_union_right]
    exact ⟨hAcB.1, hF.1⟩
  have hCB : Disjoint (feet sb h C) (feet sb h B) := by
    refine Disjoint.mono_left hsub ?_
    rw [Set.disjoint_union_left]
    exact ⟨hcB, hF.2.2.symm⟩
  rw [append_iff, append_iff, feet_append, Set.disjoint_union_left]
  exact ⟨⟨hA.grew hg, hC, hAC⟩, hB.grew hg, hAcB.2, hCB⟩

/-- **Writing an internal node over a forest plants it.** -/
theorem plant (hf : Forest sb v h K) {hdr : NodeHdr} {a : Nat}
    (hw : Wrote sb (.internal hdr h (K.map (ptr h))) v a v') :
    Planted sb v' (h + 1) (⟨a, ⟨a, sb.generation + 1⟩, K⟩ : NodeBlk (LTree h)) := by
  have hf' := hf.grew hw.grew
  have hnew : Disjoint (blk sb a) (feet sb h K) := (hf.live.mono_right hw.was_free).symm
  refine ⟨hw.addr_ne, ⟨hw.reads, ?_⟩, ⟨hf.apart, ?_⟩, ?_⟩
  · intro c hc
    exact ⟨(hf'.planted c hc).addr_ne, (hf'.planted c hc).held⟩
  · intro c hc
    exact ⟨disjoint_feet.mp hnew c hc, (hf'.planted c hc).apart⟩
  · rw [foot_node, Set.disjoint_union_left]
    exact ⟨hw.not_free, hf'.live⟩

end Forest

/-- Writing a leaf plants it. -/
theorem Wrote.plant_leaf {hdr : NodeHdr} {items : List LeafItem} {a : Nat}
    (hw : Wrote sb (.leaf hdr items) v a v') :
    Planted sb v' 0 (⟨a, ⟨a, sb.generation + 1⟩, items⟩ : LeafBlk) :=
  ⟨hw.addr_ne, hw.reads, trivial, hw.not_free⟩

/-! ## 3. Releasing nodes -/

/-- Releasing nodes in use, whose blocks do not overlap, makes exactly their bytes free. -/
theorem freeNodes_ok : ∀ (addrs : List Nat) (v : Vol), VolOk sb v →
    (addrs.Pairwise fun a b => Disjoint (blk sb a) (blk sb b)) →
    (∀ a ∈ addrs, Disjoint (blk sb a) v.sm.free ∧ blk sb a ⊆ usable sb) →
    VolOk sb (freeNodes sb v addrs) ∧ (freeNodes sb v addrs).dev = v.dev ∧
      (freeNodes sb v addrs).sm.free = v.sm.free ∪ {p | ∃ a ∈ addrs, p ∈ blk sb a} := by
  intro addrs
  induction addrs with
  | nil =>
    intro v hok _ _
    exact ⟨hok, rfl, by simp [freeNodes]⟩
  | cons a addrs ih =>
    intro v hok hpw hall
    obtain ⟨hd, hpw⟩ := List.pairwise_cons.mp hpw
    obtain ⟨hok', hfree, hdev⟩ := freeNode_ok hok (hall a (by simp)).1 (hall a (by simp)).2
    have hall' : ∀ b ∈ addrs,
        Disjoint (blk sb b) (freeNode sb v a).sm.free ∧ blk sb b ⊆ usable sb := by
      intro b hb
      refine ⟨?_, (hall b (by simp [hb])).2⟩
      rw [hfree, Set.disjoint_union_right]
      exact ⟨(hall b (by simp [hb])).1, (hd b hb).symm⟩
    obtain ⟨h1, h2, h3⟩ := ih (freeNode sb v a) hok' hpw hall'
    refine ⟨h1, h2.trans hdev, ?_⟩
    change (freeNodes sb (freeNode sb v a) addrs).sm.free = _
    rw [h3, hfree]
    ext p
    simp [or_assoc]

end Btrfs
