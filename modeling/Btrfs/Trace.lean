/-
  Btrfs/Trace.lean
  ================
  **The path a key takes through a tree on the device.**

  On a held tree the descent of `tracePath` is determined: it visits the nodes that
  routing picks in the located tree and ends in the leaf the search tree calls `leafAt`.
  Neither the visit set nor the level bytes can stop it, because the nodes of the tree do
  not overlap; only the depth bound can.
-/
import Btrfs.Located

namespace Btrfs

open Lib

namespace LTree

/-- The path a key is routed along. -/
def trace (k : Key) : (h : Nat) → LTree h → Trace
  | 0, (b : LeafBlk) => ⟨[], b.addr, b.hdr, b.items⟩
  | h + 1, (b : NodeBlk (LTree h)) =>
    match focus Kid.sep k b.kids with
    | none => ⟨[], b.addr, b.hdr, []⟩
    | some (A, c, _) =>
      let t := trace k h c.sub
      { t with inner := ⟨b.addr, b.hdr, h, b.kids.map (ptr h), A.length⟩ :: t.inner }

/-- The bytes of the nodes on the path. -/
def pathFoot (sb : Superblock) (k : Key) : (h : Nat) → LTree h → Set Nat
  | 0, (b : LeafBlk) => blk sb b.addr
  | h + 1, (b : NodeBlk (LTree h)) =>
    match focus Kid.sep k b.kids with
    | none => blk sb b.addr
    | some (_, c, _) => blk sb b.addr ∪ pathFoot sb k h c.sub

end LTree

open LTree

variable {sb : Superblock} {dev : Device} {k : Key}

theorem shape_full_kids {h : Nat} {b : NodeBlk (LTree h)}
    (hf : STree.Full (h + 1) (shape (h + 1) b)) :
    b.kids ≠ [] ∧ ∀ c ∈ b.kids, STree.Full h (shape h c.sub) := by
  obtain ⟨hne, hall⟩ := hf
  constructor
  · intro hnil
    exact hne (by simp [shape, hnil])
  · intro c hc
    exact hall (c.sep, shape h c.sub) (List.mem_map.mpr ⟨c, hc, rfl⟩)

/-- Routing in the block agrees with routing in the tree. -/
theorem chosenIdx_ptrs {h : Nat} {kids A B : List (Kid (LTree h))} {c : Kid (LTree h)}
    (hf : focus Kid.sep k kids = some (A, c, B)) : chosenIdx (kids.map (ptr h)) k = A.length := by
  obtain ⟨-, hlen⟩ := focus_eq_some hf
  have hroute : route KeyPtr.k k (kids.map (ptr h)) = route Kid.sep k kids :=
    route_map (ptr h) KeyPtr.k (fun _ => rfl) k kids
  rw [hlen, ← hroute, chosenIdx, ptrRun_eq]
  rfl

theorem focus_shape {h : Nat} {kids A B : List (Kid (LTree h))} {c : Kid (LTree h)}
    (hf : focus Kid.sep k kids = some (A, c, B)) :
    focus Prod.fst k (kids.map fun c => (c.sep, shape h c.sub)) =
      some (A.map fun c => (c.sep, shape h c.sub), (c.sep, shape h c.sub),
        B.map fun c => (c.sep, shape h c.sub)) :=
  focus_map _ _ (fun _ => rfl) hf

theorem blk_nonempty (hns : 0 < sb.nodeSize) (a : Nat) : (blk sb a).Nonempty :=
  ⟨sb.physFromLog a, le_refl _, by simp only; omega⟩

/-- A node whose block is disjoint from a tree is not a node of the tree. -/
theorem addr_not_mem_of_disjoint (hns : 0 < sb.nodeSize) {h : Nat} {t : LTree h} {seen : List Nat}
    (hseen : ∀ a ∈ seen, Disjoint (blk sb a) (foot sb h t)) : addr h t ∉ seen := by
  intro hmem
  have hself := (hseen _ hmem).mono_right (blk_subset_foot h t)
  obtain ⟨p, hp⟩ := blk_nonempty hns (addr h t)
  exact Set.disjoint_left.mp hself hp hp

/-- On a held tree the descent follows the routed path, as deep as the bound allows. -/
theorem tracePathFrom_held (hns : 0 < sb.nodeSize) (k : Key) :
    ∀ (h : Nat) (t : LTree h) (d : Nat) (seen : List Nat),
      Held sb dev h t → Apart sb h t → STree.Full h (shape h t) →
      (∀ a ∈ seen, Disjoint (blk sb a) (foot sb h t)) →
      tracePathFrom sb dev k d seen (addr h t) =
        if h < d then .ok (trace k h t) else .error (errDepth "btrfs: btree") := by
  intro h
  induction h with
  | zero =>
    intro t d seen ht _ _ hseen
    cases d with
    | zero => rfl
    | succ d =>
      have hread : readNode sb dev (addr 0 t) = .ok (node 0 t) := ht
      simp only [tracePathFrom, addr_not_mem_of_disjoint hns hseen, ↓reduceIte, hread, node]
      rfl
  | succ h ih =>
    intro (b : NodeBlk (LTree h)) d seen ht hapart hfull hseen
    cases d with
    | zero => rfl
    | succ d =>
      obtain ⟨hread, hkids⟩ := ht
      obtain ⟨-, hak⟩ := hapart
      obtain ⟨hne, hfk⟩ := shape_full_kids hfull
      obtain ⟨A, c, B, hf⟩ := focus_isSome Kid.sep k hne
      obtain ⟨hl, -⟩ := focus_eq_some hf
      have hc : c ∈ b.kids := focus_mem hf
      have hchild : childAt (b.kids.map (ptr h)) A.length = addr h c.sub := by
        simp [childAt, hl, ptr]
      -- every node above is disjoint from the child's subtree
      have hseen' : ∀ a ∈ b.addr :: seen, Disjoint (blk sb a) (foot sb h c.sub) := by
        intro a ha
        rcases List.mem_cons.mp ha with rfl | ha
        · exact (hak c hc).1
        · exact (hseen a ha).mono_right (kid_foot_subset hc)
      have hrec := ih c.sub d (b.addr :: seen) (hkids c hc).2 (hak c hc).2 (hfk c hc) hseen'
      have hnot : b.addr ∉ seen := addr_not_mem_of_disjoint (h := h + 1) (t := b) hns hseen
      have hb : addr (h + 1) b = b.addr := rfl
      rw [hb]
      simp only [tracePathFrom, hnot, ↓reduceIte, hread, chosenIdx_ptrs hf, hchild, hrec]
      by_cases hd : h < d
      · simp only [hd, ↓reduceIte, Nat.add_lt_add_iff_right, trace, hf]
      · simp only [hd, ↓reduceIte, Nat.add_lt_add_iff_right]

theorem tracePath_held (hns : 0 < sb.nodeSize) {h : Nat} {t : LTree h} (ht : Held sb dev h t)
    (hap : Apart sb h t) (hfull : STree.Full h (shape h t)) (k : Key) :
    tracePath sb dev (addr h t) k =
      if h ≤ maxBtreeDepth then .ok (trace k h t) else .error (errDepth "btrfs: btree") := by
  have hmain := tracePathFrom_held hns k h t (maxBtreeDepth + 1) [] ht hap hfull (by simp)
  rw [tracePath, hmain]
  simp only [Nat.lt_succ_iff]

/-- The leaf at the end of the path is the routed leaf. -/
theorem trace_items (k : Key) : ∀ (h : Nat) (t : LTree h), STree.Full h (shape h t) →
    (trace k h t).items = STree.leafAt k h (shape h t) := by
  intro h
  induction h with
  | zero => intro t _; rfl
  | succ h ih =>
    intro (b : NodeBlk (LTree h)) hfull
    obtain ⟨hne, hfk⟩ := shape_full_kids hfull
    obtain ⟨A, c, B, hf⟩ := focus_isSome Kid.sep k hne
    have hrec := ih c.sub (hfk c (focus_mem hf))
    simp only [trace, hf, shape, STree.leafAt, focus_shape hf]
    exact hrec

theorem trace_inner_length (k : Key) : ∀ (h : Nat) (t : LTree h), STree.Full h (shape h t) →
    (trace k h t).inner.length = h := by
  intro h
  induction h with
  | zero => intro t _; rfl
  | succ h ih =>
    intro (b : NodeBlk (LTree h)) hfull
    obtain ⟨hne, hfk⟩ := shape_full_kids hfull
    obtain ⟨A, c, B, hf⟩ := focus_isSome Kid.sep k hne
    simp only [trace, hf, List.length_cons, ih c.sub (hfk c (focus_mem hf))]

theorem pathFoot_subset (k : Key) : ∀ (h : Nat) (t : LTree h), pathFoot sb k h t ⊆ foot sb h t := by
  intro h
  induction h with
  | zero => intro t; exact subset_rfl
  | succ h ih =>
    intro (b : NodeBlk (LTree h))
    simp only [pathFoot]
    split
    · exact blk_subset_foot (h + 1) b
    · next A c B hf =>
      refine Set.union_subset (blk_subset_foot (h + 1) b) ?_
      exact (ih c.sub).trans (kid_foot_subset (focus_mem hf))

end Btrfs
