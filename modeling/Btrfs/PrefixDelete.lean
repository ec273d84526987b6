/-
  Btrfs/PrefixDelete.lean
  =======================
  **Deleting every item of one objectid and type.**

  `cowDeletePrefix` looks for a leaf that holds a matching item with one search and edits
  the leaf that another search, `tracePath` with offset 0, leads to.  The two are
  different leaves as soon as the matching items begin in one leaf and go on in the next
  and the first leaf keeps an item, or is dropped from a node that has a child to its
  left: the next pass is then routed to a leaf without a match and the whole operation
  fails.  The condition under which it does not is the sweep condition of
  `Btrfs.Lib.Sweep`, or the merge of the last two leaves of the tree after the first
  pass.
-/
import Btrfs.CowRoom
import Btrfs.History
import Btrfs.Lib.Sweep

namespace Btrfs

open Lib LTree

variable {sb : Superblock} {v v' : Vol} {objID typ ns r : Nat}

/-! ## 1. The condition -/

/-- The key every pass is routed by. -/
def prefixKey (objID typ : Nat) : Key := ⟨objID, typ, 0⟩

theorem prefix_isBand (objID typ : Nat) :
    STree.IsBand LeafItem.k (LeafItem.hasPrefix objID typ) (prefixKey objID typ) := by
  constructor
  · intro x hx
    simp only [LeafItem.hasPrefix, decide_eq_true_eq] at hx
    simp only [prefixKey, Key.le_def]
    omega
  · intro x y z hx hz hxy hyz
    simp only [LeafItem.hasPrefix, decide_eq_true_eq, Key.le_def] at *
    omega

/-- The records of the leaves below a root over leaves, once the matching ones of the routed leaf
    are out; a leaf left empty is dropped. -/
def remaining (objID typ : Nat) (kids : List (Key × List LeafItem)) : List (List (Key × Bytes)) :=
  match focus Prod.fst (prefixKey objID typ) kids with
  | none => []
  | some (A, p, B) =>
    let rest := (p.2.map LeafItem.kv).filter fun q => !recHasPrefix objID typ q
    A.map (fun q => q.2.map LeafItem.kv) ++ (if rest = [] then [] else [rest]) ++
      B.map fun q => q.2.map LeafItem.kv

/-- The first pass leaves two leaves below the root that fit in one. -/
def JoinsUp (ns objID typ : Nat) : (h : Nat) → STree Key LeafItem h → Prop
  | 1, (kids : List (Key × List LeafItem)) =>
    (∃ it ∈ STree.leafAt (prefixKey objID typ) 1 kids, it.hasPrefix objID typ = true) ∧
    ∃ l r, remaining objID typ kids = [l, r] ∧ nodeHdrSize + packedSize (l ++ r) ≤ ns
  | _, _ => False

/-- What a tree must look like for `cowDeletePrefix` to end: nothing matches, or the sweep reaches
    all that does, or the first pass leaves a single leaf. -/
def Sweepable (ns objID typ : Nat) (s : STree.Any Key LeafItem) : Prop :=
  STree.Clean (LeafItem.hasPrefix objID typ) s.items ∨
  STree.Clears (LeafItem.hasPrefix objID typ) (prefixKey objID typ) s.1 s.2 ∨
  JoinsUp ns objID typ s.1 s.2

theorem recHasPrefix_kv (it : LeafItem) : recHasPrefix objID typ it.kv = it.hasPrefix objID typ :=
  rfl

/-- An edited leaf has lost its matching items. -/
theorem strips_leafDeletePrefix {items new : List LeafItem}
    (h : leafDeletePrefix objID typ items = .ok new) :
    STree.Strips (LeafItem.hasPrefix objID typ) items new := by
  have hkv := (leafDeletePrefix_spec objID typ items).1 new h
  constructor
  · intro x hx
    have hmem : x.kv ∈ new.map LeafItem.kv := List.mem_map_of_mem hx
    rw [hkv, List.mem_filter, recHasPrefix_kv] at hmem
    simpa using hmem.2
  · rw [← List.map_eq_nil_iff (f := LeafItem.kv), hkv, List.filter_eq_nil_iff]
    simp only [List.forall_mem_map, recHasPrefix_kv, STree.Marked]
    simp

/-! ## 2. When the last two leaves merge -/

theorem mergeTwoLeaves_isSome (ns : Nat) (kids : List (Key × List LeafItem)) :
    (mergeTwoLeaves ns 1 kids).isSome = true ↔
      ∃ l r, kids.map (fun q => q.2.map LeafItem.kv) = [l, r] ∧
        nodeHdrSize + packedSize (l ++ r) ≤ ns := by
  match kids with
  | [(a, l), (b, r)] =>
    have hm : mergeTwoLeaves ns 1 ([(a, l), (b, r)] : List (Key × List LeafItem)) =
      if ns < nodeHdrSize + packedSize ((l ++ r).map LeafItem.kv) then none
      else some (packFrom ns ((l ++ r).map LeafItem.kv)) := rfl
    rw [hm, List.map_append]
    constructor
    · intro h
      by_cases hbig : ns < nodeHdrSize + packedSize (l.map LeafItem.kv ++ r.map LeafItem.kv)
      · rw [if_pos hbig] at h
        cases h
      · exact ⟨_, _, rfl, not_lt.mp hbig⟩
    · rintro ⟨l', r', hlr, hfit⟩
      simp only [List.map_cons, List.map_nil, List.cons.injEq, and_true] at hlr
      obtain ⟨rfl, rfl⟩ := hlr
      rw [if_neg (not_lt.mpr hfit)]
      rfl
  | [] => simp [mergeTwoLeaves]
  | [_] => simp [mergeTwoLeaves]
  | _ :: _ :: _ :: _ => simp [mergeTwoLeaves]

/-- The leaves of the edited root hold the remaining records. -/
theorem remaining_eq {kids A B : List (Key × List LeafItem)} {p : Key × List LeafItem}
    {new : List LeafItem} (hf : focus Prod.fst (prefixKey objID typ) kids = some (A, p, B))
    (hnew : leafDeletePrefix objID typ p.2 = .ok new) :
    (A ++ (if new = [] then [] else [(p.1, new)]) ++ B).map (fun q => q.2.map LeafItem.kv) =
      remaining objID typ kids := by
  have hkv := (leafDeletePrefix_spec objID typ p.2).1 new hnew
  simp only [remaining, hf, ← hkv, List.map_eq_nil_iff, List.map_append]
  by_cases hnil : new = []
  · rw [if_pos hnil, if_pos hnil]
    rfl
  · rw [if_neg hnil, if_neg hnil]
    rfl

/-- The edit of a root over leaves. -/
theorem edit_root {k : Key} {kids A B : List (Key × List LeafItem)} {p : Key × List LeafItem}
    (hf : focus Prod.fst k kids = some (A, p, B)) (new : List LeafItem) :
    STree.leafAt k 1 kids = p.2 ∧
    (STree.givesWay k new 1 kids = true ↔ new = [] ∧ (A ++ B).length = 1) ∧
    (STree.givesWay k new 1 kids = false → STree.mutate k new 1 kids =
      ⟨1, (A ++ (if new = [] then [] else [(p.1, new)]) ++ B : List (Key × List LeafItem))⟩) := by
  have hleaf : STree.leafAt k 1 kids = STree.leafAt k 0 p.2 := STree.leafAt_focus (h := 0) hf
  have hgives : STree.givesWay k new 1 kids =
      ((STree.edit k new 0 p.2).isNone && (A ++ B).length == 1) :=
    STree.givesWay_focus (h := 0) hf new
  have hedit : STree.edit k new 0 p.2 = if new = [] then none else some new := by
    simp only [STree.edit, List.isEmpty_iff]
    rfl
  refine ⟨hleaf, ?_, ?_⟩
  · rw [hgives, hedit, Bool.and_eq_true, beq_iff_eq]
    by_cases hnil : new = []
    · rw [if_pos hnil]
      exact ⟨fun hw => ⟨hnil, hw.2⟩, fun hw => ⟨rfl, hw.2⟩⟩
    · rw [if_neg hnil]
      exact ⟨fun hw => (Bool.false_ne_true hw.1).elim, fun hw => absurd hw.1 hnil⟩
  · intro hgw
    have hmut := STree.mutate_of_not_givesWay (h := 0) hf hgw
    rw [hedit] at hmut
    rw [hmut]
    by_cases hnil : new = []
    · rw [if_pos hnil, if_pos hnil]
      rfl
    · rw [if_neg hnil, if_neg hnil]
      rfl

/-- Of the trees whose root does not give way, exactly those of `JoinsUp` are merged. -/
theorem mergeTwoLeaves_mutate (ns : Nat) {h : Nat} {t : STree Key LeafItem h} {new : List LeafItem}
    (hfull : STree.Full h t)
    (hnew : leafDeletePrefix objID typ (STree.leafAt (prefixKey objID typ) h t) = .ok new)
    (hgw : STree.givesWay (prefixKey objID typ) new h t = false) :
    (mergeTwoLeaves ns _ (STree.mutate (prefixKey objID typ) new h t).2).isSome = true ↔
      JoinsUp ns objID typ h t := by
  match h, t, hfull, hnew, hgw with
  | 0, _, _, _, _ => exact ⟨fun hc => (Bool.false_ne_true hc).elim, False.elim⟩
  | 1, (kids : List (Key × List LeafItem)), hfull, hnew, hgw =>
    obtain ⟨A, p, B, hf⟩ := focus_isSome Prod.fst (prefixKey objID typ) hfull.1
    obtain ⟨hleaf, -, hmut⟩ := edit_root hf new
    have hmatch := (leafDeletePrefix_spec objID typ _).2.mp ⟨new, hnew⟩
    rw [hleaf] at hnew
    rw [hmut hgw, mergeTwoLeaves_isSome, remaining_eq hf hnew]
    exact ⟨fun hlr => ⟨hmatch, hlr⟩, fun hlr => hlr.2⟩
  | h + 2, (kids : List (Key × STree Key LeafItem (h + 1))), hfull, _, hgw =>
    obtain ⟨A, p, B, hf⟩ := focus_isSome Prod.fst (prefixKey objID typ) hfull.1
    rw [STree.mutate_of_not_givesWay hf hgw]
    exact ⟨fun hc => (Bool.false_ne_true hc).elim, False.elim⟩

/-! ## 3. One pass on the shape -/

section pass

variable {h : Nat} {t : STree Key LeafItem h} {new : List LeafItem}

theorem JoinsUp.leaf (hjoin : JoinsUp ns objID typ h t) :
    ∃ it ∈ STree.leafAt (prefixKey objID typ) h t, it.hasPrefix objID typ = true := by
  match h, t, hjoin with
  | 1, _, hjoin => exact hjoin.1

theorem JoinsUp.not_givesWay (hjoin : JoinsUp ns objID typ h t) (hfull : STree.Full h t)
    (hnew : leafDeletePrefix objID typ (STree.leafAt (prefixKey objID typ) h t) = .ok new) :
    ¬ STree.givesWay (prefixKey objID typ) new h t = true := by
  match h, t, hjoin, hfull, hnew with
  | 1, (kids : List (Key × List LeafItem)), hjoin, hfull, hnew =>
    obtain ⟨-, l, r, hlr, -⟩ := hjoin
    obtain ⟨A, p, B, hf⟩ := focus_isSome Prod.fst (prefixKey objID typ) hfull.1
    obtain ⟨hleaf, hgw, -⟩ := edit_root hf new
    rw [hleaf] at hnew
    have hlen := congrArg List.length (remaining_eq hf hnew)
    rw [hlr] at hlen
    rw [hgw]
    rintro ⟨hnil, hone⟩
    simp only [hnil, ↓reduceIte, List.append_nil, List.length_map, hone, List.length_cons,
      List.length_nil] at hlen
    omega

/-- A pass merges the leaves of the tree, or edits it. -/
theorem settle_prefix_cases (ns : Nat) (hfull : STree.Full h t)
    (hnew : leafDeletePrefix objID typ (STree.leafAt (prefixKey objID typ) h t) = .ok new) :
    (JoinsUp ns objID typ h t ∧ ∃ items, settle ns (prefixKey objID typ) new h t = ⟨0, items⟩) ∨
    (¬ JoinsUp ns objID typ h t ∧ settle ns (prefixKey objID typ) new h t =
      STree.mutate (prefixKey objID typ) new h t) := by
  unfold settle
  by_cases hgw : STree.givesWay (prefixKey objID typ) new h t = true
  · rw [if_pos hgw]
    refine Or.inr ⟨fun hjoin => ?_, rfl⟩
    exact hjoin.not_givesWay hfull hnew hgw
  · have hiff := mergeTwoLeaves_mutate ns hfull hnew (Bool.not_eq_true _ ▸ hgw)
    rw [if_neg hgw, merged, ← hiff]
    cases mergeTwoLeaves ns _ (STree.mutate (prefixKey objID typ) new h t).2 with
    | some items => exact Or.inl ⟨rfl, items, rfl⟩
    | none => exact Or.inr ⟨Bool.false_ne_true, rfl⟩

/-- A pass keeps a tree sweepable. -/
theorem Sweepable.settle (hfull : STree.Full h t) (hord : STree.Ordered LeafItem.k h t)
    (hnew : leafDeletePrefix objID typ (STree.leafAt (prefixKey objID typ) h t) = .ok new)
    (hs : Sweepable ns objID typ ⟨h, t⟩) :
    Sweepable ns objID typ (settle ns (prefixKey objID typ) new h t) := by
  have hmatch := (leafDeletePrefix_spec objID typ _).2.mp ⟨new, hnew⟩
  rcases settle_prefix_cases ns hfull hnew with ⟨-, items, hset⟩ | ⟨hnot, hset⟩
  · rw [hset]
    by_cases hclean : STree.Clean (LeafItem.hasPrefix objID typ) items
    · exact Or.inl hclean
    · exact Or.inr (Or.inl (STree.not_clean.mp hclean))
  · have hiff := STree.clears_mutate (prefix_isBand objID typ) hfull hord hmatch
      (strips_leafDeletePrefix hnew)
    have hclears : STree.Clears (LeafItem.hasPrefix objID typ) (prefixKey objID typ) h t := by
      rcases hs with hclean | hclears | hjoin
      · obtain ⟨it, hit, hm⟩ := hmatch
        rw [hclean it (STree.leafAt_subset _ h t hfull it hit)] at hm
        cases hm
      · exact hclears
      · exact absurd hjoin hnot
    rw [hset]
    rcases hiff.mpr hclears with hc | hc
    · exact Or.inr (Or.inl hc)
    · exact Or.inl hc

/-- Without empty leaves a pass makes no tree sweepable that was not. -/
theorem Sweepable.of_settle (hs : Sound ⟨h, t⟩)
    (hnew : leafDeletePrefix objID typ (STree.leafAt (prefixKey objID typ) h t) = .ok new)
    (hnext : Sweepable ns objID typ (Btrfs.settle ns (prefixKey objID typ) new h t)) :
    Sweepable ns objID typ ⟨h, t⟩ := by
  have hmatch := (leafDeletePrefix_spec objID typ _).2.mp ⟨new, hnew⟩
  have hstrips := strips_leafDeletePrefix hnew
  have hiff := STree.clears_mutate (prefix_isBand objID typ) hs.full hs.ordered hmatch hstrips
  rcases settle_prefix_cases ns hs.full hnew with ⟨hjoin, -⟩ | ⟨-, hset⟩
  · exact Or.inr (Or.inr hjoin)
  · right; left
    rw [hset] at hnext
    apply hiff.mp
    rcases hnext with hc | hc | hc
    · exact Or.inr hc
    · exact Or.inl hc
    · -- the leaves left would merge, but then the sweep has come to the front already
      left
      cases h with
      | zero => exact hc.elim
      | succ h =>
        generalize hmut : STree.mutate (prefixKey objID typ) new (h + 1) t = s at hc ⊢
        obtain ⟨m, u⟩ := s
        match m, u, hmut, hc with
        | 1, u, hmut, hc =>
          exact STree.clears_again (prefix_isBand objID typ) (hs.noEmpty (Nat.succ_pos h))
            hs.ordered hmatch hstrips hmut hc.1

/-- A pass takes out matching records only, and at least one. -/
theorem settle_prefix_contents (ns : Nat) (hfull : STree.Full h t)
    (hnew : leafDeletePrefix objID typ (STree.leafAt (prefixKey objID typ) h t) = .ok new) :
    (anyContents (settle ns (prefixKey objID typ) new h t)).filter
        (fun q => !recHasPrefix objID typ q) =
      (anyContents ⟨h, t⟩).filter (fun q => !recHasPrefix objID typ q) ∧
    ((anyContents (settle ns (prefixKey objID typ) new h t)).filter
        (recHasPrefix objID typ)).length <
      ((anyContents ⟨h, t⟩).filter (recHasPrefix objID typ)).length := by
  obtain ⟨hkv, hok⟩ := leafDeletePrefix_spec objID typ (STree.leafAt (prefixKey objID typ) h t)
  obtain ⟨it, hit, hm⟩ := hok.mp ⟨new, hnew⟩
  have hmem : it.kv ∈ ((STree.leafAt (prefixKey objID typ) h t).map LeafItem.kv).filter
      (recHasPrefix objID typ) := List.mem_filter.mpr ⟨List.mem_map_of_mem hit, hm⟩
  have hpos := List.length_pos_of_mem hmem
  rw [anyContents_settle ns (prefixKey objID typ) new hfull, hkv new hnew,
    contents_around (prefixKey objID typ) hfull]
  constructor
  · simp only [List.filter_append, List.filter_filter, Bool.and_self]
  · have hnil : (((STree.leafAt (prefixKey objID typ) h t).map LeafItem.kv).filter
        fun q => !recHasPrefix objID typ q).filter (recHasPrefix objID typ) = [] := by
      rw [List.filter_filter, List.filter_eq_nil_iff]
      intro q _
      simp
    simp only [List.filter_append, List.length_append, hnil, List.length_nil]
    omega

theorem settle_prefix_inside (hfull : STree.Full h t)
    (hord : STree.Ordered LeafItem.k h t)
    (hnew : leafDeletePrefix objID typ (STree.leafAt (prefixKey objID typ) h t) = .ok new) :
    new.Pairwise (fun a b => a.k < b.k) ∧
      ∀ x ∈ new, STree.Inside (prefixKey objID typ) x.k h t := by
  have hkv := (leafDeletePrefix_spec objID typ _).1 new hnew
  constructor
  · apply sorted_of_kv
    rw [hkv]
    exact (kv_leaf_sorted hord hfull _).sublist List.filter_sublist
  · apply inside_of_kv hord hfull
    intro q hq
    rw [hkv] at hq
    exact Or.inr ⟨q, List.mem_of_mem_filter hq, rfl⟩

end pass

/-! ## 4. The loop -/

theorem full_settle {h : Nat} {t : STree Key LeafItem h} (ns : Nat) (k : Key)
    (new : List LeafItem) (hfull : STree.Full h t) :
    STree.Full (settle ns k new h t).1 (settle ns k new h t).2 ∨
      (settle ns k new h t).items = [] := by
  by_cases hnil : (settle ns k new h t).items = []
  · exact Or.inr hnil
  · left
    have hzero : ∀ s : STree.Any Key LeafItem, s.1 = 0 → STree.Full s.1 s.2 := by
      rintro ⟨_, s⟩ rfl
      trivial
    by_cases hpos : (settle ns k new h t).1 = 0
    · exact hzero _ hpos
    · cases h with
      | zero => exact absurd (Nat.le_zero.mp (settle_size ns k new 0 t).1) hpos
      | succ h =>
        have hne : anyContents (settle ns k new (h + 1) t) ≠ [] := by
          rw [anyContents, Ne, List.map_eq_nil_iff]
          exact hnil
        exact settle_keeps (P := STree.Full) hfull.2 (hfull.edit k new (h + 1) t) hne
          (Nat.pos_of_ne_zero hpos)

/-- A tree at `r` that the next pass can deal with: within the limits of the searches, with room
    for a copy of a path. -/
structure Ready (sb : Superblock) (v : Vol) (r : Nat) (s : STree.Any Key LeafItem) : Prop where
  stands : Stands sb v r s
  ordered : STree.Ordered LeafItem.k s.1 s.2
  full : STree.Full s.1 s.2 ∨ s.items = []
  depth : s.1 ≤ maxBtreeDepth
  size : s.nodes ≤ maxTreeNodes
  room : s.1 + 1 ≤ v.sm.blocks

variable {s : STree.Any Key LeafItem}

theorem Ready.full_of_match (hr : Ready sb v r s)
    (hmatch : ¬ STree.Clean (LeafItem.hasPrefix objID typ) s.items) : STree.Full s.1 s.2 := by
  rcases hr.full with hfull | hnil
  · exact hfull
  · rw [hnil] at hmatch
    exact absurd (by simp [STree.Clean]) hmatch

/-- The search at the head of the loop. -/
theorem Ready.find (hr : Ready sb v r s) (objID typ : Nat) :
    ∃ o, findLeafContainingPrefix sb v.dev r objID typ = .ok o ∧
      (o = none ↔ STree.Clean (LeafItem.hasPrefix objID typ) s.items) := by
  obtain ⟨h, t, rfl, ht, rfl⟩ := hr.stands.elim
  have hns : 0 < sb.nodeSize := lt_of_lt_of_le (by decide) ht.vol.nodeSize_ge
  have hcount : count h t ≤ maxTreeNodes := by
    rw [count_eq_nodes]
    exact hr.size
  exact findLeafContainingPrefix_held hns ht.held ht.apart hr.depth hcount hr.ordered objID typ

/-- A pass that succeeds had a match in the routed leaf, and leaves the tree ready. -/
theorem Ready.pass {r' : Nat} (hr : Ready sb v r s)
    (hmatch : ¬ STree.Clean (LeafItem.hasPrefix objID typ) s.items)
    (hrun : cowMutate sb r (prefixKey objID typ) (leafDeletePrefix objID typ) v = .ok r' v') :
    ∃ new, leafDeletePrefix objID typ (STree.leafAt (prefixKey objID typ) s.1 s.2) = .ok new ∧
      Ready sb v' r' (settle sb.nodeSize (prefixKey objID typ) new s.1 s.2) := by
  obtain ⟨h, t, rfl, ht, rfl⟩ := hr.stands.elim
  have hfull : STree.Full h (shape h t) := hr.full_of_match hmatch
  have htree : TreeOk sb v t := ⟨ht, hfull⟩
  obtain ⟨-, new, hnew, hstands, -⟩ := cowMutate_spec htree hrun
  obtain ⟨r₁, v₁, hrun₁, hblocks⟩ := cowMutate_progress htree hr.depth hnew hr.room
  rw [hrun] at hrun₁
  simp only [EStateM.Result.ok.injEq] at hrun₁
  obtain ⟨rfl, rfl⟩ := hrun₁
  obtain ⟨hsorted, hin⟩ := settle_prefix_inside hfull hr.ordered hnew
  obtain ⟨hheight, hnodes⟩ := settle_size sb.nodeSize (prefixKey objID typ) new h (shape h t)
  refine ⟨new, hnew, hstands, ordered_settle hr.ordered hfull hsorted hin, ?_,
    hheight.trans hr.depth, hnodes.trans hr.size, ?_⟩
  · exact full_settle sb.nodeSize (prefixKey objID typ) new hfull
  · have hroom : h + 1 ≤ v.sm.blocks := hr.room
    change (settle sb.nodeSize (prefixKey objID typ) new h (shape h t)).1 + 1 ≤ v'.sm.blocks
    omega

/-- The head of the loop, when nothing matches. -/
theorem cowDeletePrefix_done (hr : Ready sb v r s)
    (hclean : STree.Clean (LeafItem.hasPrefix objID typ) s.items) (passes : Nat) :
    cowDeletePrefix sb objID typ (passes + 1) r v = .ok r v := by
  obtain ⟨o, hfind, ho⟩ := hr.find objID typ
  obtain rfl := ho.mpr hclean
  rw [cowDeletePrefix, run_bind]
  refine ⟨v, v, run_get.mpr ⟨rfl, rfl⟩, run_bind.mpr ⟨none, v, ?_, ?_⟩⟩
  · exact run_fromExcept.mpr ⟨hfind, rfl⟩
  · exact run_pure.mpr ⟨rfl, rfl⟩

/-- The head of the loop, when something matches: a pass, and the rest of the loop. -/
theorem cowDeletePrefix_more {r' : Nat} (hr : Ready sb v r s)
    (hmatch : ¬ STree.Clean (LeafItem.hasPrefix objID typ) s.items) (passes : Nat) :
    cowDeletePrefix sb objID typ (passes + 1) r v = .ok r' v' ↔
      ∃ r₁ v₁, cowMutate sb r (prefixKey objID typ) (leafDeletePrefix objID typ) v = .ok r₁ v₁ ∧
        cowDeletePrefix sb objID typ passes r₁ v₁ = .ok r' v' := by
  obtain ⟨o, hfind, ho⟩ := hr.find objID typ
  cases o with
  | none => exact absurd (ho.mp rfl) hmatch
  | some a =>
    rw [cowDeletePrefix, run_bind]
    constructor
    · rintro ⟨v₀, v₁, hget, hrest⟩
      obtain ⟨rfl, rfl⟩ := run_get.mp hget
      rw [run_bind] at hrest
      obtain ⟨o, v₂, hex, hrest⟩ := hrest
      rw [run_fromExcept, hfind] at hex
      obtain ⟨ho, rfl⟩ := hex
      obtain rfl := Except.ok.inj ho
      exact run_bind.mp hrest
    · rintro ⟨r₁, v₁, hpass, hrest⟩
      refine ⟨v, v, run_get.mpr ⟨rfl, rfl⟩, run_bind.mpr ⟨some a, v, ?_, ?_⟩⟩
      · exact run_fromExcept.mpr ⟨hfind, rfl⟩
      · exact run_bind.mpr ⟨r₁, v₁, hpass, hrest⟩

/-- The records that do not match. -/
def others (objID typ : Nat) (recs : List (Key × Bytes)) : List (Key × Bytes) :=
  recs.filter fun q => !recHasPrefix objID typ q

theorem others_of_clean (hclean : STree.Clean (LeafItem.hasPrefix objID typ) s.items) :
    others objID typ (anyContents s) = anyContents s := by
  rw [others, List.filter_eq_self]
  intro q hq
  obtain ⟨it, hit, rfl⟩ := List.mem_map.mp hq
  rw [recHasPrefix_kv, hclean it hit]
  rfl

/-- On a sweepable tree the loop ends, with the matching records gone. -/
theorem cowDeletePrefix_sweepable : ∀ (passes : Nat) (v : Vol) (r : Nat)
    (s : STree.Any Key LeafItem), Ready sb v r s → Sweepable sb.nodeSize objID typ s →
    ((anyContents s).filter (recHasPrefix objID typ)).length < passes →
    ∃ r' v' s', cowDeletePrefix sb objID typ passes r v = .ok r' v' ∧ Ready sb v' r' s' ∧
      anyContents s' = others objID typ (anyContents s) := by
  intro passes
  induction passes with
  | zero => intro v r s _ _ hlt; exact absurd hlt (Nat.not_lt_zero _)
  | succ passes ih =>
    intro v r s hr hs hlt
    by_cases hclean : STree.Clean (LeafItem.hasPrefix objID typ) s.items
    · exact ⟨r, v, s, cowDeletePrefix_done hr hclean passes, hr, (others_of_clean hclean).symm⟩
    · obtain ⟨h, t, rfl, ht, rfl⟩ := hr.stands.elim
      have hfull : STree.Full h (shape h t) := hr.full_of_match hclean
      -- the routed leaf has a match
      have hmatch : ∃ it ∈ STree.leafAt (prefixKey objID typ) h (shape h t),
          it.hasPrefix objID typ = true := by
        rcases hs with hc | hc | hc
        · exact absurd hc hclean
        · exact hc.leaf h (shape h t)
        · exact hc.leaf
      obtain ⟨new, hnew⟩ := (leafDeletePrefix_spec objID typ _).2.mpr hmatch
      obtain ⟨r₁, v₁, hrun, -⟩ := cowMutate_progress ⟨ht, hfull⟩ hr.depth hnew hr.room
      obtain ⟨new', hnew', hnext⟩ := hr.pass hclean hrun
      obtain rfl : new = new' := by
        rw [hnew] at hnew'
        exact Except.ok.inj hnew'
      obtain ⟨hothers, hfewer⟩ := settle_prefix_contents sb.nodeSize hfull hnew
      obtain ⟨r', v', s', hrest, hr', hcont⟩ := ih v₁ r₁ _ hnext (hs.settle hfull hr.ordered hnew)
        (lt_of_lt_of_le hfewer (Nat.lt_succ_iff.mp hlt))
      refine ⟨r', v', s', (cowDeletePrefix_more hr hclean passes).mpr ⟨r₁, v₁, hrun, hrest⟩, hr', ?_⟩
      rw [hcont]
      exact hothers

/-- A run of the loop that ends began at a sweepable tree, if no leaf was empty. -/
theorem sweepable_of_cowDeletePrefix : ∀ (passes : Nat) (v v' : Vol) (r r' : Nat)
    (s : STree.Any Key LeafItem), Ready sb v r s → Sound s →
    cowDeletePrefix sb objID typ passes r v = .ok r' v' → Sweepable sb.nodeSize objID typ s := by
  intro passes
  induction passes with
  | zero => intro v v' r r' s _ _ hrun; cases hrun
  | succ passes ih =>
    intro v v' r r' s hr hs hrun
    by_cases hclean : STree.Clean (LeafItem.hasPrefix objID typ) s.items
    · exact Or.inl hclean
    · obtain ⟨r₁, v₁, hpass, hrest⟩ := (cowDeletePrefix_more hr hclean passes).mp hrun
      obtain ⟨new, hnew, hnext⟩ := hr.pass hclean hpass
      apply Sweepable.of_settle hs hnew
      by_cases hnil : (settle sb.nodeSize (prefixKey objID typ) new s.1 s.2).items = []
      · left
        rw [hnil]
        simp [STree.Clean]
      · obtain ⟨hsorted, hin⟩ := settle_prefix_inside hs.full hs.ordered hnew
        apply ih v₁ v' r₁ r' _ hnext _ hrest
        apply hs.settle hsorted hin
        left
        rw [anyContents, Ne, List.map_eq_nil_iff]
        exact hnil

/-! ## 5. Complete deletion -/

/-- `cowDeletePrefix` from `root` succeeds, and a walk from the new root lists these records. -/
def DeletesPrefix (sb : Superblock) (v : Vol) (root objID typ passes : Nat)
    (recs : List (Key × Bytes)) : Prop :=
  ∃ r v', cowDeletePrefix sb objID typ passes root v = .ok r v' ∧
    (walkLeaves sb v'.dev r).2 = none ∧ walked sb v'.dev r = recs

/-- **Prefix deletion.**  On a tree within the limits of the searches, with room for a copy of a
    path, `cowDeletePrefix` removes exactly the matching items if the tree is sweepable, and, when
    no leaf below the root is empty, only then. -/
theorem deletePrefix_complete {h : Nat} {t : LTree h} (ht : WellFormed sb v t)
    (hdepth : h ≤ maxBtreeDepth) (hcount : count h t ≤ maxTreeNodes)
    (hroom : h + 1 ≤ v.sm.blocks) (objID typ passes : Nat)
    (hpasses : (contents h t).length < passes) :
    (Sweepable sb.nodeSize objID typ ⟨h, shape h t⟩ →
      DeletesPrefix sb v (addr h t) objID typ passes (others objID typ (contents h t))) ∧
    ((0 < h → STree.NoEmpty h (shape h t)) →
      DeletesPrefix sb v (addr h t) objID typ passes (others objID typ (contents h t)) →
      Sweepable sb.nodeSize objID typ ⟨h, shape h t⟩) := by
  have hready : Ready sb v (addr h t) ⟨h, shape h t⟩ := by
    refine ⟨Stands.intro t rfl ht.toOnVol rfl, ht.ordered, Or.inl ht.full, hdepth, ?_, hroom⟩
    rw [count_eq_nodes] at hcount
    exact hcount
  constructor
  · intro hs
    have hlt : ((anyContents ⟨h, shape h t⟩).filter (recHasPrefix objID typ)).length < passes :=
      lt_of_le_of_lt (List.length_filter_le _ _) hpasses
    obtain ⟨r, v', s, hrun, hr, hcont⟩ :=
      cowDeletePrefix_sweepable passes v (addr h t) _ hready hs hlt
    have hlists := hr.stands.lists le_rfl le_rfl
    have hends := hlists.ends hr.depth hr.size
    exact ⟨r, v', hrun, hends, (hlists.listed hends).trans hcont⟩
  · rintro hne ⟨r, v', hrun, -, -⟩
    exact sweepable_of_cowDeletePrefix passes v v' (addr h t) r _ hready ⟨ht.ordered, hne⟩ hrun

def plainItem (objID typ offset : Nat) : LeafItem := ⟨⟨objID, typ, offset⟩, 67, []⟩

/-- The matching items fill the first leaf and go on in the second. -/
def front : NodeBlk (LTree 0) :=
  pair ⟨5, 7, 0⟩ ⟨5, 7, 2⟩ [plainItem 5 7 0, plainItem 5 7 1] [plainItem 5 7 2, plainItem 9 1 0]

def frontVol : Vol :=
  pairVol ⟨5, 7, 0⟩ ⟨5, 7, 2⟩ [plainItem 5 7 0, plainItem 5 7 1] [plainItem 5 7 2, plainItem 9 1 0]

theorem deletePrefix_complete_front :
    Sweepable 168 5 7 ⟨1, shape 1 front⟩ ∧
    ∃ r v', cowDeletePrefix smallSb 5 7 5 1024 frontVol = .ok r v' ∧
      (walkLeaves smallSb v'.dev r).2 = none ∧ walked smallSb v'.dev r = [(⟨9, 1, 0⟩, [])] := by
  have ht : WellFormed smallSb frontVol (h := 1) front :=
    pair_wellFormed (pair_ordered (by decide) (by decide) (by decide))
  have hs : Sweepable 168 5 7 ⟨1, shape 1 front⟩ := by
    refine Or.inr (Or.inl (Or.inr ⟨rfl, ?_, [], _, [], rfl, nofun, ?_, nofun⟩))
    · exact ⟨List.cons_ne_nil _ _, (by decide : ∀ x ∈ [plainItem 5 7 0, plainItem 5 7 1],
        x.hasPrefix 5 7 = true)⟩
    · exact (by decide : ∃ x ∈ [plainItem 5 7 2, plainItem 9 1 0], x.hasPrefix 5 7 = true)
  exact ⟨hs,
    (deletePrefix_complete ht (by decide) (by decide) (by decide) 5 7 5 (by decide)).1 hs⟩

/-- The matching items begin in the first leaf, behind another item, and go on in the second. -/
def spread : NodeBlk (LTree 0) :=
  pair ⟨1, 1, 0⟩ ⟨5, 7, 1⟩ [plainItem 1 1 0, plainItem 5 7 0] [plainItem 5 7 1, plainItem 5 7 2]

def spreadVol : Vol :=
  pairVol ⟨1, 1, 0⟩ ⟨5, 7, 1⟩ [plainItem 1 1 0, plainItem 5 7 0] [plainItem 5 7 1, plainItem 5 7 2]

theorem spread_not_sweepable : ¬ Sweepable 168 5 7 ⟨1, shape 1 spread⟩ := by
  rintro (hclean | ⟨⟨-, hclean⟩ | ⟨-, ⟨-, hall⟩, -⟩⟩ | ⟨-, l, r, hlr, hfit⟩)
  · exact absurd (hclean (plainItem 5 7 0) (by decide)) (by decide)
  · exact absurd (hclean (plainItem 5 7 1) (by decide)) (by decide)
  · exact absurd (hall (plainItem 1 1 0) List.mem_cons_self) (by decide)
  · -- three items are left in two leaves, and a leaf has room for two
    have hrem : remaining 5 7 [(⟨1, 1, 0⟩, [plainItem 1 1 0, plainItem 5 7 0]),
        (⟨5, 7, 1⟩, [plainItem 5 7 1, plainItem 5 7 2])] =
      [[(⟨1, 1, 0⟩, [])], [(⟨5, 7, 1⟩, []), (⟨5, 7, 2⟩, [])]] := by decide
    have hsame := hrem.symm.trans hlr
    simp only [List.cons.injEq, and_true] at hsame
    obtain ⟨rfl, rfl⟩ := hsame
    exact absurd hfit (by decide)

/-- Nothing is wrong with the tree and there is room for 39 more nodes, but the second pass is
    routed to the first leaf again. -/
theorem deletePrefix_fails_spread :
    WellFormed smallSb spreadVol (h := 1) spread ∧ spreadVol.sm.blocks = 39 ∧
    ∀ passes, ¬ ∃ r v', cowDeletePrefix smallSb 5 7 passes (addr 1 spread) spreadVol = .ok r v' := by
  have hord : STree.Ordered LeafItem.k 1 (shape 1 spread) :=
    pair_ordered (by decide) (by decide) (by decide)
  have ht : WellFormed smallSb spreadVol (h := 1) spread := pair_wellFormed hord
  refine ⟨ht, by decide, ?_⟩
  rintro passes ⟨r, v', hrun⟩
  have hready : Ready smallSb spreadVol (addr 1 spread) ⟨1, shape 1 spread⟩ :=
    ⟨Stands.intro (m := 1) spread rfl ht.toOnVol rfl, hord, Or.inl ht.full, by decide, by decide, by decide⟩
  have hne : STree.NoEmpty 1 (shape 1 spread) := by
    refine ⟨List.cons_ne_nil _ _, ?_⟩
    intro p hp
    obtain ⟨c, hc, rfl⟩ := List.mem_map.mp hp
    rcases mem_pair hc with rfl | rfl
    · exact List.cons_ne_nil _ _
    · exact List.cons_ne_nil _ _
  exact spread_not_sweepable
    (sweepable_of_cowDeletePrefix passes _ v' _ r _ hready ⟨hord, fun _ => hne⟩ hrun)

end Btrfs
