/-
  Btrfs/Walk.lean
  ===============
  **Whole-tree walks over a tree on the device.**

  A walk that ends without an error has handed out the leaves of the tree from left to
  right.  The node count and the depth are the only things that can stop it: the visit
  set cannot, because the nodes of the tree do not overlap.
-/
import Btrfs.Trace

namespace Btrfs

open Lib LTree

variable {sb : Superblock} {dev : Device}

/-! ## 1. What a walk hands out -/

/-- What a walk without an error has done: it has handed out the leaves in order and counted the
    nodes, within the limits. -/
structure Walked (h : Nat) (t : LTree h) (w w' : Walk (List LeafItem)) : Prop where
  out : w'.out = w.out ++ leaves h t
  visits : w'.visits = w.visits + count h t
  visits_le : w'.visits ≤ maxTreeNodes

theorem walkNodeAt_walked : ∀ (h : Nat) (t : LTree h) (d : Nat) (w w' : Walk (List LeafItem))
    (u : Unit), Held sb dev h t → walkNodeAt sb dev d (addr h t) w = .ok u w' →
    Walked h t w w' ∧ (STree.Full h (shape h t) → h < d) := by
  intro h
  induction h with
  | zero =>
    intro (b : LeafBlk) d w w' u ht hrun
    cases d with
    | zero => simp [walkNodeAt] at hrun
    | succ d =>
      have hread : readNode sb dev (addr 0 b) = .ok (.leaf b.hdr b.items) := ht
      simp only [walkNodeAt, hread] at hrun
      split_ifs at hrun
      simp only [EStateM.Result.ok.injEq, true_and] at hrun
      rw [← hrun]
      exact ⟨⟨rfl, rfl, by simp only; omega⟩, fun _ => Nat.succ_pos d⟩
  | succ h ih =>
    intro (b : NodeBlk (LTree h)) d w w' u ht hrun
    obtain ⟨hread, hkids⟩ := ht
    cases d with
    | zero => simp [walkNodeAt] at hrun
    | succ d =>
      -- the children one after the other
      have hall : ∀ (K : List (Kid (LTree h))) (w w' : Walk (List LeafItem)),
          (∀ c ∈ K, c ∈ b.kids) → w.visits ≤ maxTreeNodes →
          (K.map (ptr h)).forM
            (fun p => if p.child = 0 then pure () else walkNodeAt sb dev d p.child) w = .ok u w' →
          (w'.out = w.out ++ K.flatMap (fun c => leaves h c.sub) ∧
            w'.visits = w.visits + (K.map fun c => count h c.sub).sum ∧ w'.visits ≤ maxTreeNodes) ∧
            ∀ c ∈ K, STree.Full h (shape h c.sub) → h < d := by
        intro K
        induction K with
        | nil =>
          intro w w' _ hw hrun
          simp only [List.map_nil, run_forM_nil] at hrun
          rw [← hrun]
          exact ⟨⟨by simp, rfl, hw⟩, by simp⟩
        | cons c K ihK =>
          intro w w' hK _ hrun
          have hc := hkids c (hK c (by simp))
          have hchild : (ptr h c).child = addr h c.sub := rfl
          rw [List.map_cons, run_forM_cons] at hrun
          obtain ⟨w₁, hrun₁, hrun⟩ := hrun
          rw [hchild, if_neg hc.1] at hrun₁
          obtain ⟨⟨hout, hvis, hle⟩, hlt⟩ := ih c.sub d w w₁ () hc.2 hrun₁
          obtain ⟨⟨hout', hvis', hle'⟩, hlt'⟩ := ihK w₁ w' (fun e he => hK e (by simp [he])) hle hrun
          refine ⟨⟨?_, ?_, hle'⟩, List.forall_mem_cons.mpr ⟨hlt, hlt'⟩⟩
          · rw [hout', hout, List.append_assoc, List.flatMap_cons]
          · rw [hvis', hvis, List.map_cons, List.sum_cons]
            omega
      have hb : addr (h + 1) b = b.addr := rfl
      rw [hb] at hrun
      simp only [walkNodeAt, hread] at hrun
      split_ifs at hrun
      obtain ⟨⟨hout, hvis, hle⟩, hlt⟩ := hall b.kids ⟨b.addr :: w.seen, w.visits + 1, w.out⟩ w'
        (fun _ hc => hc) (by simp only; omega) hrun
      have hcnt : count (h + 1) b = 1 + (b.kids.map fun c => count h c.sub).sum := rfl
      refine ⟨⟨hout, ?_, hle⟩, fun hfull => ?_⟩
      · rw [hvis, hcnt]
        simp only
        omega
      · obtain ⟨hne, hfk⟩ := shape_full_kids hfull
        obtain ⟨c, hc⟩ := List.exists_mem_of_ne_nil _ hne
        exact Nat.succ_lt_succ (hlt c hc (hfk c hc))

section walkLeaves

variable {h : Nat} {t : LTree h}

/-- The run of a `walkLeaves` that does not fail. -/
theorem walkLeaves_walked (ht : Held sb dev h t) (hok : (walkLeaves sb dev (addr h t)).2 = none) :
    Walked h t ⟨[], 0, []⟩ ⟨[], count h t, (walkLeaves sb dev (addr h t)).1⟩ ∧
      (STree.Full h (shape h t) → h ≤ maxBtreeDepth) := by
  rw [walkLeaves, runWalk] at hok ⊢
  cases hrun : walkNodeAt sb dev (maxBtreeDepth + 1) (addr h t) ⟨[], 0, []⟩ with
  | error e w => rw [hrun] at hok; cases hok
  | ok u w =>
    obtain ⟨⟨hout, hvis, hle⟩, hlt⟩ := walkNodeAt_walked h t _ _ w u ht hrun
    refine ⟨⟨hout, (Nat.zero_add _).symm, ?_⟩, fun hfull => Nat.le_of_lt_succ (hlt hfull)⟩
    rw [hvis, Nat.zero_add] at hle
    exact hle

/-- **What `walkLeaves` lists**, when it does not fail. -/
theorem walkLeaves_out (ht : Held sb dev h t) (hok : (walkLeaves sb dev (addr h t)).2 = none) :
    (walkLeaves sb dev (addr h t)).1 = leaves h t := (walkLeaves_walked ht hok).1.out

theorem walkLeaves_limits (ht : Held sb dev h t) (hfull : STree.Full h (shape h t))
    (hok : (walkLeaves sb dev (addr h t)).2 = none) :
    h ≤ maxBtreeDepth ∧ count h t ≤ maxTreeNodes :=
  ⟨(walkLeaves_walked ht hok).2 hfull, (walkLeaves_walked ht hok).1.visits_le⟩

end walkLeaves

/-! ## 2. When a walk ends -/

/-- Addresses already seen are outside the tree. -/
def Unseen (sb : Superblock) (seen : List Nat) {h : Nat} (t : LTree h) : Prop :=
  ∀ a ∈ seen, Disjoint (blk sb a) (foot sb h t)

/-- Within the node count and the depth, a walk ends without an error. -/
theorem walkNodeAt_isOk (hns : 0 < sb.nodeSize) :
    ∀ (h : Nat) (t : LTree h) (d : Nat) (w : Walk (List LeafItem)),
      Held sb dev h t → Apart sb h t → h < d → w.visits + count h t ≤ maxTreeNodes →
      Unseen sb w.seen t →
      ∃ w', walkNodeAt sb dev d (addr h t) w = .ok () w' ∧
        w'.visits = w.visits + count h t ∧
        ∀ a ∈ w'.seen, a ∈ w.seen ∨ blk sb a ⊆ foot sb h t := by
  intro h
  induction h with
  | zero =>
    intro (b : LeafBlk) d w ht _ hd hcount hseen
    obtain ⟨d, rfl⟩ := Nat.exists_eq_succ_of_ne_zero (by omega : d ≠ 0)
    have hread : readNode sb dev (addr 0 b) = .ok (.leaf b.hdr b.items) := ht
    have hone : count 0 b = 1 := rfl
    rw [hone] at hcount
    simp only [walkNodeAt, hread, addr_not_mem_of_disjoint hns hseen, ↓reduceIte]
    rw [if_neg (by omega)]
    refine ⟨_, rfl, rfl, ?_⟩
    intro a ha
    rcases List.mem_cons.mp ha with rfl | ha
    · exact Or.inr subset_rfl
    · exact Or.inl ha
  | succ h ih =>
    intro (b : NodeBlk (LTree h)) d w ht hap hd hcount hseen
    obtain ⟨d, rfl⟩ := Nat.exists_eq_succ_of_ne_zero (by omega : d ≠ 0)
    obtain ⟨hread, hkids⟩ := ht
    have hcnt : count (h + 1) b = 1 + (b.kids.map fun c => count h c.sub).sum := rfl
    rw [hcnt] at hcount
    -- the children one after the other: what is seen stays outside the children to come
    have hall : ∀ (K : List (Kid (LTree h))) (w : Walk (List LeafItem)),
        (∀ c ∈ K, c ∈ b.kids) →
        (K.Pairwise fun c e => Disjoint (foot sb h c.sub) (foot sb h e.sub)) →
        w.visits + (K.map fun c => count h c.sub).sum ≤ maxTreeNodes →
        (∀ c ∈ K, Unseen sb w.seen c.sub) →
        ∃ w', (K.map (ptr h)).forM
            (fun p => if p.child = 0 then pure () else walkNodeAt sb dev d p.child) w = .ok () w' ∧
          w'.visits = w.visits + (K.map fun c => count h c.sub).sum ∧
          ∀ a ∈ w'.seen, a ∈ w.seen ∨ blk sb a ⊆ foot sb (h + 1) b := by
      intro K
      induction K with
      | nil =>
        intro w _ _ _ _
        exact ⟨w, rfl, rfl, fun a ha => Or.inl ha⟩
      | cons c K ihK =>
        intro w hK hpw hsum hunseen
        obtain ⟨hcK, hpw⟩ := List.pairwise_cons.mp hpw
        have hcb := hK c (by simp)
        rw [List.map_cons, List.sum_cons] at hsum
        obtain ⟨w₁, hrun₁, hvis₁, hseen₁⟩ := ih c.sub d w (hkids c hcb).2 (hap.2 c hcb).2
          (by omega) (by omega) (hunseen c (by simp))
        have hunseen₁ : ∀ e ∈ K, Unseen sb w₁.seen e.sub := by
          intro e he a ha
          rcases hseen₁ a ha with ha | ha
          · exact hunseen e (by simp [he]) a ha
          · exact (hcK e he).mono_left ha
        obtain ⟨w', hrun', hvis', hseen'⟩ := ihK w₁ (fun e he => hK e (by simp [he])) hpw
          (by omega) hunseen₁
        refine ⟨w', ?_, ?_, ?_⟩
        · have hchild : (ptr h c).child = addr h c.sub := rfl
          rw [List.map_cons, run_forM_cons]
          refine ⟨w₁, ?_, hrun'⟩
          rw [hchild, if_neg (hkids c hcb).1]
          exact hrun₁
        · rw [List.map_cons, List.sum_cons]
          omega
        · intro a ha
          rcases hseen' a ha with ha | ha
          · rcases hseen₁ a ha with ha | ha
            · exact Or.inl ha
            · exact Or.inr (ha.trans (kid_foot_subset hcb))
          · exact Or.inr ha
    have hb : addr (h + 1) b = b.addr := rfl
    have hnot : b.addr ∉ w.seen := addr_not_mem_of_disjoint (h := h + 1) (t := b) hns hseen
    have hstart : ∀ c ∈ b.kids, Unseen sb (b.addr :: w.seen) c.sub := by
      intro c hc a ha
      rcases List.mem_cons.mp ha with rfl | ha
      · exact (hap.2 c hc).1
      · exact (hseen a ha).mono_right (kid_foot_subset hc)
    obtain ⟨w', hrun', hvis', hseen'⟩ := hall b.kids ⟨b.addr :: w.seen, w.visits + 1, w.out⟩
      (fun _ hc => hc) hap.1 (by simp only; omega) hstart
    rw [hb]
    simp only [walkNodeAt, hread, hnot, ↓reduceIte]
    rw [if_neg (by omega)]
    refine ⟨w', hrun', ?_, ?_⟩
    · rw [hvis', hcnt]
      simp only
      omega
    · intro a ha
      rcases hseen' a ha with ha | ha
      · rcases List.mem_cons.mp ha with rfl | ha
        · exact Or.inr (blk_subset_foot (h + 1) b)
        · exact Or.inl ha
      · exact Or.inr ha

/-- Within the node count and the depth, `walkLeaves` does not fail. -/
theorem walkLeaves_ok (hns : 0 < sb.nodeSize) {h : Nat} {t : LTree h} (ht : Held sb dev h t)
    (hap : Apart sb h t) (hd : h ≤ maxBtreeDepth) (hcount : count h t ≤ maxTreeNodes) :
    walkLeaves sb dev (addr h t) = (leaves h t, none) := by
  obtain ⟨w, hrun, -, -⟩ := walkNodeAt_isOk hns h t (maxBtreeDepth + 1) ⟨[], 0, []⟩ ht hap
    (by omega) (by simpa using hcount) (by intro a ha; simp at ha)
  have hnone : (walkLeaves sb dev (addr h t)).2 = none := by
    rw [walkLeaves, runWalk, hrun]
  exact Prod.ext (walkLeaves_out ht hnone) hnone

/-! ## 3. The walk over node addresses -/

/-- The addresses of the nodes, each before those below it. -/
def nodeAddrs : (h : Nat) → LTree h → List Nat
  | 0, (b : LeafBlk) => [b.addr]
  | h + 1, (b : NodeBlk (LTree h)) => b.addr :: b.kids.flatMap fun c => nodeAddrs h c.sub

theorem length_nodeAddrs : ∀ (h : Nat) (t : LTree h), (nodeAddrs h t).length = count h t := by
  intro h
  induction h with
  | zero => intro t; rfl
  | succ h ih =>
    intro (b : NodeBlk (LTree h))
    simp only [nodeAddrs, count, List.length_cons, List.length_flatMap, ih]
    exact Nat.add_comm _ _

theorem mem_foot_iff : ∀ (h : Nat) (t : LTree h) (p : Nat),
    p ∈ foot sb h t ↔ ∃ a ∈ nodeAddrs h t, p ∈ blk sb a := by
  intro h
  induction h with
  | zero =>
    intro (b : LeafBlk) p
    simp only [nodeAddrs, foot, List.mem_singleton, exists_eq_left]
  | succ h ih =>
    intro (b : NodeBlk (LTree h)) p
    simp only [nodeAddrs, foot, Set.mem_union, Set.mem_ofPred_eq, List.mem_cons, List.mem_flatMap,
      or_and_right, exists_or, exists_eq_left, ih]
    constructor
    · rintro (hp | ⟨c, hc, a, ha, hp⟩)
      · exact Or.inl hp
      · exact Or.inr ⟨a, ⟨c, hc, ha⟩, hp⟩
    · rintro (hp | ⟨a, ⟨c, hc, ha⟩, hp⟩)
      · exact Or.inl hp
      · exact Or.inr ⟨c, hc, a, ha, hp⟩

theorem Held.readable : ∀ (h : Nat) (t : LTree h), Held sb dev h t →
    ∀ a ∈ nodeAddrs h t, ∃ n, readNode sb dev a = .ok n := by
  intro h
  induction h with
  | zero =>
    intro (b : LeafBlk) ht a ha
    obtain rfl := List.mem_singleton.mp ha
    exact ⟨_, ht⟩
  | succ h ih =>
    intro (b : NodeBlk (LTree h)) ht a ha
    rcases List.mem_cons.mp ha with rfl | ha
    · exact ⟨_, ht.1⟩
    · obtain ⟨c, hc, ha⟩ := List.mem_flatMap.mp ha
      exact ih c.sub (ht.2 c hc).2 a ha

/-- How a walk over the nodes at `as`, with blocks in `S`, ends: all of them are handed out, or
    the node count stops it and the callback has seen as many as were left. -/
def Hands (sb : Superblock) (x : EStateM Err (Walk Nat) Unit) (w : Walk Nat) (as : List Nat)
    (S : Set Nat) : Prop :=
  (∃ w', x w = .ok () w' ∧ w'.visits = w.visits + as.length ∧ w'.visits ≤ maxTreeNodes ∧
    (∀ a ∈ w'.seen, a ∈ w.seen ∨ blk sb a ⊆ S) ∧ w'.out = w.out ++ as) ∨
  (∃ e w', x w = .error e w' ∧ maxTreeNodes - w.visits ≤ as.length ∧
    w'.out = w.out ++ as.take (maxTreeNodes - w.visits))

/-- One walk after another. -/
theorem Hands.seq {x y : EStateM Err (Walk Nat) Unit} {w : Walk Nat} {as bs : List Nat}
    {S T : Set Nat} (hx : Hands sb x w as S)
    (hy : ∀ w₁, w₁.visits ≤ maxTreeNodes → (∀ a ∈ w₁.seen, a ∈ w.seen ∨ blk sb a ⊆ S) →
      Hands sb y w₁ bs T) :
    Hands sb (x >>= fun _ => y) w (as ++ bs) (S ∪ T) := by
  rcases hx with ⟨w₁, hrun, hvis, hle, hseen, hout⟩ | ⟨e, w', hrun, hleft, hout⟩
  · have hlen : as.length ≤ maxTreeNodes - w.visits := by omega
    rcases hy w₁ hle hseen with
      ⟨w', hrun', hvis', hle', hseen', hout'⟩ | ⟨e, w', hrun', hleft, hout'⟩
    · refine Or.inl ⟨w', run_bind.mpr ⟨(), w₁, hrun, hrun'⟩, ?_, hle', ?_, ?_⟩
      · rw [List.length_append]
        omega
      · intro a ha
        rcases hseen' a ha with ha | ha
        · exact (hseen a ha).imp_right fun hS => hS.trans Set.subset_union_left
        · exact Or.inr (ha.trans Set.subset_union_right)
      · rw [hout', hout, List.append_assoc]
    · refine Or.inr ⟨e, w', run_bind_error.mpr (Or.inr ⟨(), w₁, hrun, hrun'⟩), ?_, ?_⟩
      · rw [List.length_append]
        omega
      · rw [hout', hout, List.append_assoc, List.take_append, List.take_of_length_le hlen, hvis,
          Nat.sub_add_eq]
  · refine Or.inr ⟨e, w', run_bind_error.mpr (Or.inl hrun), ?_, ?_⟩
    · rw [List.length_append]
      omega
    · rw [hout, List.take_append_of_le_length hleft]

theorem walkAddrsAt_hands (hns : 0 < sb.nodeSize) :
    ∀ (h : Nat) (t : LTree h) (d : Nat) (w : Walk Nat),
      Held sb dev h t → Apart sb h t → h < d → w.visits ≤ maxTreeNodes → Unseen sb w.seen t →
      Hands sb (walkAddrsAt sb dev d (addr h t)) w (nodeAddrs h t) (foot sb h t) := by
  intro h
  induction h with
  | zero =>
    intro (b : LeafBlk) d w ht _ hd hle hseen
    obtain ⟨d, rfl⟩ := Nat.exists_eq_succ_of_ne_zero (by omega : d ≠ 0)
    have hread : readNode sb dev (addr 0 b) = .ok (.leaf b.hdr b.items) := ht
    have haddrs : nodeAddrs 0 b = [addr 0 b] := rfl
    rw [haddrs]
    by_cases hfull : maxTreeNodes ≤ w.visits
    · refine Or.inr ⟨errGuard "walkNodeAddrs", w, ?_, by omega, ?_⟩
      · simp only [walkAddrsAt]
        rw [if_pos hfull]
      · rw [Nat.sub_eq_zero_of_le hfull, List.take_zero, List.append_nil]
    · refine Or.inl ⟨⟨addr 0 b :: w.seen, w.visits + 1, w.out ++ [addr 0 b]⟩, ?_, rfl, ?_, ?_, rfl⟩
      · simp only [walkAddrsAt, hread, addr_not_mem_of_disjoint hns hseen, ↓reduceIte]
        rw [if_neg hfull]
      · exact Nat.lt_of_not_le hfull
      · intro a ha
        rcases List.mem_cons.mp ha with rfl | ha
        · exact Or.inr subset_rfl
        · exact Or.inl ha
  | succ h ih =>
    intro (b : NodeBlk (LTree h)) d w ht hap hd hle hseen
    obtain ⟨d, rfl⟩ := Nat.exists_eq_succ_of_ne_zero (by omega : d ≠ 0)
    obtain ⟨hread, hkids⟩ := ht
    have hall : ∀ (K : List (Kid (LTree h))) (w : Walk Nat), (∀ c ∈ K, c ∈ b.kids) →
        (K.Pairwise fun c e => Disjoint (foot sb h c.sub) (foot sb h e.sub)) →
        w.visits ≤ maxTreeNodes → (∀ c ∈ K, Unseen sb w.seen c.sub) →
        Hands sb ((K.map (ptr h)).forM
            (fun p => if p.child = 0 then pure () else walkAddrsAt sb dev d p.child)) w
          (K.flatMap fun c => nodeAddrs h c.sub) {p | ∃ c ∈ K, p ∈ foot sb h c.sub} := by
      intro K
      induction K with
      | nil =>
        intro w _ _ hle _
        exact Or.inl ⟨w, rfl, rfl, hle, fun a ha => Or.inl ha, (List.append_nil _).symm⟩
      | cons c K ihK =>
        intro w hK hpw hle hunseen
        obtain ⟨hcK, hpw⟩ := List.pairwise_cons.mp hpw
        have hcb := hK c (by simp)
        have hstep : (if (ptr h c).child = 0 then pure () else
            walkAddrsAt sb dev d (ptr h c).child) = walkAddrsAt sb dev d (addr h c.sub) :=
          if_neg (hkids c hcb).1
        have hsets : {p | ∃ e ∈ c :: K, p ∈ foot sb h e.sub} =
            foot sb h c.sub ∪ {p | ∃ e ∈ K, p ∈ foot sb h e.sub} := by
          ext p
          simp
        have hc := ih c.sub d w (hkids c hcb).2 (hap.2 c hcb).2 (by omega) hle
          (hunseen c (by simp))
        have hseq := hc.seq (y := (K.map (ptr h)).forM fun p =>
            if p.child = 0 then pure () else walkAddrsAt sb dev d p.child) (T := _) fun w₁ hle₁ hseen₁ =>
          ihK w₁ (fun e he => hK e (by simp [he])) hpw hle₁ ?_
        · rw [hsets, List.flatMap_cons, ← hstep] at *
          exact hseq
        · intro e he a ha
          rcases hseen₁ a ha with ha | ha
          · exact hunseen e (by simp [he]) a ha
          · exact (hcK e he).mono_left ha
    have hb : addr (h + 1) b = b.addr := rfl
    have hnot : b.addr ∉ w.seen := addr_not_mem_of_disjoint (h := h + 1) (t := b) hns hseen
    rw [hb]
    by_cases hfull : maxTreeNodes ≤ w.visits
    · refine Or.inr ⟨errGuard "walkNodeAddrs", w, ?_, by omega, ?_⟩
      · simp only [walkAddrsAt]
        rw [if_pos hfull]
      · rw [Nat.sub_eq_zero_of_le hfull, List.take_zero, List.append_nil]
    -- the node itself, then its children
    · have hvisit : Hands sb
          (fun w => .ok () ⟨b.addr :: w.seen, w.visits + 1, w.out ++ [b.addr]⟩) w [b.addr]
          (blk sb b.addr) := by
        refine Or.inl ⟨_, rfl, rfl, Nat.lt_of_not_le hfull, ?_, rfl⟩
        intro a ha
        rcases List.mem_cons.mp ha with rfl | ha
        · exact Or.inr subset_rfl
        · exact Or.inl ha
      have hseq := hvisit.seq fun w₁ hle₁ hseen₁ => hall b.kids w₁ (fun _ hc => hc) hap.1 hle₁ <| by
        intro c hc a ha
        rcases hseen₁ a ha with ha | ha
        · exact (hseen a ha).mono_right (kid_foot_subset hc)
        · exact (hap.2 c hc).1.mono_left ha
      have hrun : walkAddrsAt sb dev (d + 1) b.addr w =
          ((b.kids.map (ptr h)).forM fun p =>
            if p.child = 0 then pure () else walkAddrsAt sb dev d p.child)
            ⟨b.addr :: w.seen, w.visits + 1, w.out ++ [b.addr]⟩ := by
        simp only [walkAddrsAt, hread, hnot, ↓reduceIte]
        rw [if_neg hfull]
      unfold Hands at hseq ⊢
      rw [hrun]
      exact hseq

/-- `walkNodeAddrs` hands out the nodes of the tree one by one, up to the node count. -/
theorem walkNodeAddrs_held (hns : 0 < sb.nodeSize) {h : Nat} {t : LTree h}
    (ht : Held sb dev h t) (hap : Apart sb h t) (hd : h ≤ maxBtreeDepth) :
    (walkNodeAddrs sb dev (addr h t)).1 = (nodeAddrs h t).take maxTreeNodes := by
  have hwalk := walkAddrsAt_hands hns h t (maxBtreeDepth + 1) ⟨[], 0, []⟩ ht hap (by omega)
    (Nat.zero_le _) (by intro a ha; cases ha)
  rw [walkNodeAddrs, runWalk]
  rcases hwalk with ⟨w, hrun, hvis, hle, -, hout⟩ | ⟨e, w, hrun, -, hout⟩
  · rw [hrun]
    have hlen : (nodeAddrs h t).length ≤ maxTreeNodes := by
      simp only at hvis
      omega
    rw [List.take_of_length_le hlen]
    exact hout
  · rw [hrun]
    exact hout

end Btrfs
