/-
  Btrfs/Ops.lean
  ==============
  **`cowInsert`, `cowUpdate` and `cowDelete` on a tree of the volume.**

  Each operation edits the routed leaf and leaves the rest of the in-order list alone,
  whichever way the tree is restructured around the edit.  `cowInsert` first tries the
  edit in place and falls back to a split when the leaf is full; the first attempt has
  then written nothing, because the leaf primitive fails before the first block does.
-/
import Btrfs.Lib.SearchOrder
import Btrfs.CowSplit

namespace Btrfs

open Lib LTree

variable {sb : Superblock} {v v' : Vol} {k : Key} {data : Bytes}

/-! ## 1. A full leaf -/

/-- The computation never fails with the full-leaf error. -/
def NeverFull {α : Type} (x : VolM α) : Prop :=
  ∀ v e v', x v = .error e v' → e.is .errLeafFull = false

theorem neverFull_bind {α β : Type} {x : VolM α} {f : α → VolM β} (hx : NeverFull x)
    (hf : ∀ a, NeverFull (f a)) : NeverFull (x >>= f) := by
  intro v e v' h
  rcases run_bind_error.mp h with h | ⟨a, v₁, -, h⟩
  · exact hx v e v' h
  · exact hf a v₁ e v' h

theorem neverFull_pure {α : Type} (a : α) : NeverFull (pure a : VolM α) := by
  intro v e v' h
  cases h

theorem neverFull_write (msg : String) (n : Node) :
    NeverFull (wrapErr (.wrap msg []) (writeCowNode sb n)) := by
  intro v e v' h
  unfold wrapErr writeCowNode SpaceManager.allocNodeBlock at h
  cases hfit : firstFit v.sm.nodeSize v.sm.freeExts with
  | some r => simp [hfit] at h
  | none =>
    simp only [hfit, EStateM.Result.error.injEq] at h
    rw [← h.1]
    rfl

theorem neverFull_cowLeaf (path : Trace) (items : List LeafItem) :
    NeverFull (cowLeaf sb path items) := by
  unfold cowLeaf
  split_ifs
  · exact neverFull_pure _
  · exact neverFull_bind (neverFull_write _ _) fun _ => neverFull_pure _

theorem neverFull_cowClimb (start : Climbed) : ∀ (inner : List PathEntry) (isRoot : Bool),
    NeverFull (cowClimb sb isRoot inner start) := by
  intro inner
  induction inner with
  | nil => intro isRoot; exact neverFull_pure _
  | cons pe deeper ih =>
    intro isRoot
    unfold cowClimb
    refine neverFull_bind (ih false) ?_
    intro up
    cases up with
    | child log => exact neverFull_bind (neverFull_write _ _) fun _ => neverFull_pure _
    | collapsed log => exact neverFull_pure _
    | gone =>
      simp only
      split_ifs
      · exact neverFull_pure _
      · exact neverFull_pure _
      · exact neverFull_bind (neverFull_write _ _) fun _ => neverFull_pure _

theorem neverFull_tryCollapse (root : Nat) : NeverFull (tryCollapseTwoLeafRoot sb root) := by
  intro v e v' h
  simp only [tryCollapseTwoLeafRoot] at h
  -- every way through the attempt ends in a root
  repeat' split at h
  all_goals cases h

/-- A mutation that reports a full leaf stopped in the leaf primitive, before any write. -/
theorem cowMutate_full {h : Nat} {t : LTree h} {fn : List LeafItem → Except Err (List LeafItem)}
    {e : Err} (ht : TreeOk sb v t) (hrun : cowMutate sb (addr h t) k fn v = .error e v')
    (hfull : e.is .errLeafFull = true) :
    v' = v ∧ fn (STree.leafAt k h (shape h t)) = .error e := by
  have hns : 0 < sb.nodeSize := lt_of_lt_of_le (by decide) ht.vol.nodeSize_ge
  have hlate : ∀ path items, NeverFull (do
      let start ← cowLeaf sb path items
      let top ← cowClimb sb true path.inner start
      modify fun v => freeNodes sb v path.oldNodes
      cowFinish sb path.leafHdr top) := by
    intro path items
    refine neverFull_bind (neverFull_cowLeaf path items) fun start => ?_
    refine neverFull_bind (neverFull_cowClimb start path.inner true) fun top => ?_
    refine neverFull_bind (by intro v e v' h; cases h) fun _ => ?_
    cases top with
    | collapsed log => exact neverFull_pure _
    | gone => exact neverFull_write _ _
    | child log => exact neverFull_tryCollapse log
  rw [cowMutate, run_bind_error] at hrun
  rcases hrun with hrun | ⟨v₀, v₁, hget, hrun⟩
  · cases hrun
  obtain ⟨rfl, rfl⟩ := run_get.mp hget
  rw [run_bind_error, tracePath_held hns ht.held ht.apart ht.full] at hrun
  rcases hrun with hrun | ⟨path, v₂, htr, hrun⟩
  · -- the depth error is of another kind
    split_ifs at hrun
    · cases hrun
    · simp only [fromExcept, throw, throwThe, MonadExceptOf.throw, EStateM.throw,
        EStateM.Result.error.injEq] at hrun
      rw [← hrun.1] at hfull
      cases hfull
  rw [run_fromExcept] at htr
  obtain ⟨htr, rfl⟩ := htr
  split_ifs at htr with hdepth
  obtain rfl : trace k h t = path := by simpa using htr
  rw [run_bind_error, trace_items k h t ht.full] at hrun
  rcases hrun with hrun | ⟨items, v₂, hfn, hrun⟩
  · cases hfn : fn (STree.leafAt k h (shape h t)) with
    | ok items => rw [hfn] at hrun; cases hrun
    | error e' =>
      rw [hfn] at hrun
      simp only [fromExcept, throw, throwThe, MonadExceptOf.throw, EStateM.throw,
        EStateM.Result.error.injEq] at hrun
      rw [hrun.1, hrun.2]
      exact ⟨rfl, rfl⟩
  · rw [hlate _ _ _ _ _ hrun] at hfull
    cases hfull

/-! ## 2. Where an insertion, an update and a deletion lead -/

/-- The shapes an insertion can end in: the routed leaf edited, or, when it is full, cut. -/
inductive Inserted (ns : Nat) (k : Key) (data : Bytes) (h : Nat) (t : STree Key LeafItem h) :
    STree.Any Key LeafItem → Prop
  | inPlace (new : List LeafItem) (hnew : leafInsertItem ns (STree.leafAt k h t) k data = .ok new) :
      Inserted ns k data h t (settle ns k new h t)
  | split (l r : List LeafItem) (s : Key) (hne : STree.leafAt k h t ≠ [])
      (hsplit : splitAndInsertLeaf ns (STree.leafAt k h t) k data = .ok (l, r, s)) :
      Inserted ns k data h t
        (STree.grow LeafItem.k ⟨0, 0, 0⟩ h (STree.cut (nodeCap ns) k l r s h t))

/-- The shape an update of the item at `idx` of the routed leaf ends in. -/
inductive Updated (ns : Nat) (k : Key) (data : Bytes) (h : Nat) (t : STree Key LeafItem h) :
    STree.Any Key LeafItem → Prop
  | mk (new : List LeafItem) (idx : Nat) (it : LeafItem)
      (hit : (STree.leafAt k h t)[idx]? = some it) (hk : it.k = k)
      (hnew : leafReplaceItemData ns (STree.leafAt k h t) idx data = .ok new) :
      Updated ns k data h t (settle ns k new h t)

inductive Deleted (ns : Nat) (k : Key) (h : Nat) (t : STree Key LeafItem h) :
    STree.Any Key LeafItem → Prop
  | mk (idx : Nat) (it : LeafItem) (hit : (STree.leafAt k h t)[idx]? = some it) (hk : it.k = k) :
      Deleted ns k h t (settle ns k (leafDeleteItem (STree.leafAt k h t) idx) h t)

section spec

variable {h r : Nat} {t : LTree h}

theorem cowInsert_spec (ht : TreeOk sb v t)
    (hrun : cowInsert sb (addr h t) k data v = .ok r v') :
    h ≤ maxBtreeDepth ∧ Moved sb v v' (foot sb h t) ∧
      ∃ s, Stands sb v' r s ∧ Inserted sb.nodeSize k data h (shape h t) s := by
  rw [cowInsert] at hrun
  cases hmut : cowMutate sb (addr h t) k
      (fun items => leafInsertItem sb.nodeSize items k data) v with
  | ok r' v₁ =>
    rw [hmut] at hrun
    simp only [EStateM.Result.ok.injEq] at hrun
    obtain ⟨rfl, rfl⟩ := hrun
    obtain ⟨hd, new, hnew, hst, hmv⟩ := cowMutate_spec ht hmut
    exact ⟨hd, hmv, _, hst, .inPlace new hnew⟩
  | error e v₁ =>
    rw [hmut] at hrun
    simp only at hrun
    split_ifs at hrun with hfull
    obtain ⟨rfl, hleaf⟩ := cowMutate_full ht hmut hfull
    obtain ⟨hd, ll, lr, ls, hsplit, hst, hmv⟩ := cowInsertSplit_spec ht hrun
    refine ⟨hd, hmv, _, hst, .split ll lr ls ?_ hsplit⟩
    intro hnil
    rw [hnil] at hleaf
    exact leafInsertItem_nil_full hleaf _ hsplit

theorem cowUpdate_spec (ht : TreeOk sb v t)
    (hrun : cowUpdate sb (addr h t) k data v = .ok r v') :
    h ≤ maxBtreeDepth ∧ Moved sb v v' (foot sb h t) ∧
      ∃ s, Stands sb v' r s ∧ Updated sb.nodeSize k data h (shape h t) s := by
  obtain ⟨hd, new, hnew, hst, hmv⟩ := cowMutate_spec ht hrun
  cases hidx : findItemIdx (STree.leafAt k h (shape h t)) k.objID k.typ k.offset with
  | none => simp [hidx] at hnew
  | some idx =>
    simp only [hidx] at hnew
    obtain ⟨it, hit, hk⟩ := findItemIdx_some hidx
    exact ⟨hd, hmv, _, hst, .mk new idx it hit hk hnew⟩

theorem cowDelete_spec (ht : TreeOk sb v t)
    (hrun : cowDelete sb (addr h t) k v = .ok r v') :
    h ≤ maxBtreeDepth ∧ Moved sb v v' (foot sb h t) ∧
      ∃ s, Stands sb v' r s ∧ Deleted sb.nodeSize k h (shape h t) s := by
  obtain ⟨hd, new, hnew, hst, hmv⟩ := cowMutate_spec ht hrun
  cases hidx : findItemIdx (STree.leafAt k h (shape h t)) k.objID k.typ k.offset with
  | none => simp [hidx] at hnew
  | some idx =>
    simp only [hidx, Except.ok.injEq] at hnew
    obtain ⟨it, hit, hk⟩ := findItemIdx_some hidx
    rw [← hnew] at hst
    exact ⟨hd, hmv, _, hst, .mk idx it hit hk⟩

end spec

/-! ## 3. What the routed leaf stands for in the in-order list -/

/-- The `(key, data)` pairs of a tree of some height, in order. -/
def anyContents (s : STree.Any Key LeafItem) : List (Key × Bytes) := s.items.map LeafItem.kv

/-- The merge of two leaves under a root. -/
theorem merged_pair (ns : Nat) (kids : List (Key × List LeafItem)) {a b : Key}
    {l r : List LeafItem} (hk : kids = [(a, l), (b, r)]) :
    merged ns ⟨1, kids⟩ =
      if ns < nodeHdrSize + packedSize ((l ++ r).map LeafItem.kv) then ⟨1, kids⟩
      else ⟨0, packFrom ns ((l ++ r).map LeafItem.kv)⟩ := by
  subst hk
  by_cases hbig : ns < nodeHdrSize + packedSize ((l ++ r).map LeafItem.kv)
  · have hnone : mergeTwoLeaves ns 1 ([(a, l), (b, r)] : List (Key × List LeafItem)) = none :=
      if_pos hbig
    rw [if_pos hbig, merged, hnone]
  · have hsome : mergeTwoLeaves ns 1 ([(a, l), (b, r)] : List (Key × List LeafItem)) =
        some (packFrom ns ((l ++ r).map LeafItem.kv)) := if_neg hbig
    rw [if_neg hbig, merged, hsome]

theorem anyContents_merged (ns : Nat) (s : STree.Any Key LeafItem) :
    anyContents (merged ns s) = anyContents s := by
  match s with
  | ⟨1, (kids : List (Key × List LeafItem))⟩ =>
    match hk : kids with
    | [(a, l), (b, r)] =>
      have hitems : STree.items 1 kids = l ++ (r ++ []) := by
        rw [hk]
        rfl
      rw [← hk, merged_pair ns kids hk]
      split_ifs
      · rfl
      · unfold anyContents STree.Any.items
        rw [hitems, List.append_nil]
        exact map_kv_packFrom _ ns
    | [] => rfl
    | [_] => rfl
    | _ :: _ :: _ :: _ => rfl
  | ⟨0, _⟩ => rfl
  | ⟨_ + 2, _⟩ => rfl

/-- Only the records of the routed leaf change. -/
theorem anyContents_settle (ns : Nat) (k : Key) (new : List LeafItem) {h : Nat}
    {t : STree Key LeafItem h} (hfull : STree.Full h t) :
    anyContents (settle ns k new h t) =
      (STree.before k h t).map LeafItem.kv ++ new.map LeafItem.kv ++
        (STree.after k h t).map LeafItem.kv := by
  have hmut : anyContents (STree.mutate k new h t) =
      (STree.before k h t).map LeafItem.kv ++ new.map LeafItem.kv ++
        (STree.after k h t).map LeafItem.kv := by
    rw [anyContents, STree.mutate_items k new h t hfull, List.map_append, List.map_append]
  unfold settle
  split_ifs
  · exact hmut
  · rw [anyContents_merged, hmut]

theorem anyContents_grow (ns : Nat) (k s : Key) (l r : List LeafItem) {h : Nat}
    {t : STree Key LeafItem h} (hfull : STree.Full h t) :
    anyContents (STree.grow LeafItem.k ⟨0, 0, 0⟩ h (STree.cut (nodeCap ns) k l r s h t)) =
      (STree.before k h t).map LeafItem.kv ++ (l ++ r).map LeafItem.kv ++
        (STree.after k h t).map LeafItem.kv := by
  rw [anyContents, STree.grow_items, STree.cut_items _ k l r s h t hfull, List.map_append,
    List.map_append]

theorem orderedInsert_middle {b l a : List (Key × Bytes)} (hb : ∀ r ∈ b, r.1 < k)
    (ha : ∀ r ∈ a, k < r.1) :
    (b ++ l ++ a).orderedInsert keyLE (k, data) = b ++ l.orderedInsert keyLE (k, data) ++ a := by
  induction b with
  | nil =>
    induction l with
    | nil =>
      cases a with
      | nil => rfl
      | cons r a =>
        have hle : keyLE (k, data) r := (ha r (by simp)).le
        simp [List.orderedInsert_cons, hle]
    | cons q l ih =>
      simp only [List.nil_append] at ih
      simp only [List.nil_append, List.cons_append, List.orderedInsert_cons]
      split_ifs
      · rfl
      · rw [ih, List.cons_append]
  | cons q b ih =>
    have hle : ¬ keyLE (k, data) q := not_le.mpr (hb q (by simp))
    have ih := ih fun r hr => hb r (by simp [hr])
    simp only [List.cons_append, List.orderedInsert_cons, hle, ↓reduceIte, ih]

theorem filter_middle {b l a : List (Key × Bytes)} (hb : ∀ r ∈ b, r.1 < k)
    (ha : ∀ r ∈ a, k < r.1) :
    (b ++ l ++ a).filter (fun r => decide (r.1 ≠ k)) =
      b ++ l.filter (fun r => decide (r.1 ≠ k)) ++ a := by
  have hb' : b.filter (fun r => decide (r.1 ≠ k)) = b := by
    rw [List.filter_eq_self]
    intro r hr
    exact decide_eq_true (hb r hr).ne
  have ha' : a.filter (fun r => decide (r.1 ≠ k)) = a := by
    rw [List.filter_eq_self]
    intro r hr
    exact decide_eq_true (ha r hr).ne'
  rw [List.filter_append, List.filter_append, hb', ha']

/-- The list with the data of `k` replaced. -/
def replaceData (k : Key) (data : Bytes) (recs : List (Key × Bytes)) : List (Key × Bytes) :=
  recs.map fun r => if r.1 = k then (r.1, data) else r

theorem replaceData_middle {b l a : List (Key × Bytes)} (hb : ∀ r ∈ b, r.1 < k)
    (ha : ∀ r ∈ a, k < r.1) :
    replaceData k data (b ++ l ++ a) = b ++ replaceData k data l ++ a := by
  have hb' : replaceData k data b = b.map id :=
    List.map_congr_left fun r hr => if_neg (hb r hr).ne
  have ha' : replaceData k data a = a.map id :=
    List.map_congr_left fun r hr => if_neg (ha r hr).ne'
  rw [List.map_id] at hb' ha'
  simp only [replaceData, List.map_append] at *
  rw [hb', ha']

/-! ## 4. The operations on the in-order list -/

section contents

variable {ns h : Nat} {t : STree Key LeafItem h} {s : STree.Any Key LeafItem}

/-- The in-order list around the routed leaf. -/
theorem contents_around (k : Key) (hfull : STree.Full h t) :
    anyContents ⟨h, t⟩ = (STree.before k h t).map LeafItem.kv ++
      (STree.leafAt k h t).map LeafItem.kv ++ (STree.after k h t).map LeafItem.kv := by
  rw [anyContents, STree.Any.items, STree.items_eq k h t hfull, List.map_append, List.map_append]

theorem kv_before_lt (hord : STree.Ordered LeafItem.k h t) (k : Key) :
    ∀ r ∈ (STree.before k h t).map LeafItem.kv, r.1 < k := by
  intro r hr
  obtain ⟨it, hit, rfl⟩ := List.mem_map.mp hr
  exact hord.before_lt k h t it hit

theorem kv_after_gt (hord : STree.Ordered LeafItem.k h t) (k : Key) :
    ∀ r ∈ (STree.after k h t).map LeafItem.kv, k < r.1 := by
  intro r hr
  obtain ⟨it, hit, rfl⟩ := List.mem_map.mp hr
  exact hord.after_gt k h t it hit

theorem kv_leaf_sorted (hord : STree.Ordered LeafItem.k h t) (hfull : STree.Full h t) (k : Key) :
    ((STree.leafAt k h t).map LeafItem.kv).Pairwise fun a b => a.1 < b.1 := by
  rw [List.pairwise_map]
  exact hord.leafAt_sorted k h t hfull

theorem getElem?_map_kv {l : List LeafItem} {idx : Nat} {it : LeafItem} (hit : l[idx]? = some it) :
    (l.map LeafItem.kv)[idx]? = some (it.k, it.data) := by
  rw [List.getElem?_map, hit]
  rfl

/-- A key absent from the tree is absent from the routed leaf. -/
theorem absent_leafAt (hfull : STree.Full h t) (habs : ∀ r ∈ anyContents ⟨h, t⟩, r.1 ≠ k) :
    ∀ it ∈ STree.leafAt k h t, it.k ≠ k := by
  intro it hit
  apply habs it.kv
  rw [contents_around k hfull]
  simp only [List.mem_append]
  exact Or.inl (Or.inr (List.mem_map_of_mem hit))

theorem Inserted.contents (hins : Inserted ns k data h t s) (hord : STree.Ordered LeafItem.k h t)
    (hfull : STree.Full h t) (habs : ∀ r ∈ anyContents ⟨h, t⟩, r.1 ≠ k) :
    anyContents s = (anyContents ⟨h, t⟩).orderedInsert keyLE (k, data) := by
  have habs' := absent_leafAt hfull habs
  rw [contents_around k hfull, orderedInsert_middle (kv_before_lt hord k) (kv_after_gt hord k)]
  cases hins with
  | inPlace new hnew => rw [anyContents_settle ns k new hfull, leafInsertItem_ok habs' hnew]
  | split l r s hne hsplit =>
    rw [anyContents_grow ns k s l r hfull, splitAndInsertLeaf_ok habs' hsplit]

theorem Updated.contents (hup : Updated ns k data h t s) (hord : STree.Ordered LeafItem.k h t)
    (hfull : STree.Full h t) : anyContents s = replaceData k data (anyContents ⟨h, t⟩) := by
  rw [contents_around k hfull, replaceData_middle (kv_before_lt hord k) (kv_after_gt hord k)]
  obtain ⟨new, idx, it, hit, rfl, hnew⟩ := hup
  rw [anyContents_settle ns it.k new hfull, leafReplaceItemData_ok hit hnew,
    set_eq_map data _ idx _ (kv_leaf_sorted hord hfull it.k) (getElem?_map_kv hit)]
  rfl

theorem Deleted.contents (hdel : Deleted ns k h t s) (hord : STree.Ordered LeafItem.k h t)
    (hfull : STree.Full h t) :
    anyContents s = (anyContents ⟨h, t⟩).filter fun q => decide (q.1 ≠ k) := by
  rw [contents_around k hfull, filter_middle (kv_before_lt hord k) (kv_after_gt hord k)]
  obtain ⟨idx, it, hit, rfl⟩ := hdel
  rw [anyContents_settle ns it.k _ hfull, map_kv_leafDeleteItem,
    eraseIdx_eq_filter _ idx _ (kv_leaf_sorted hord hfull it.k) (getElem?_map_kv hit)]

end contents

/-! ## 5. How large an operation can make a tree -/

section size

variable {ns h : Nat} {t : STree Key LeafItem h} {s : STree.Any Key LeafItem}

theorem merged_size (ns : Nat) (s : STree.Any Key LeafItem) :
    (merged ns s).1 ≤ s.1 ∧ (merged ns s).nodes ≤ s.nodes := by
  unfold merged
  split
  · refine ⟨Nat.zero_le _, ?_⟩
    obtain ⟨h, t⟩ := s
    cases h with
    | zero => exact le_rfl
    | succ h => exact Nat.le_add_right 1 _
  · exact ⟨le_rfl, le_rfl⟩

theorem settle_size (ns : Nat) (k : Key) (new : List LeafItem) (h : Nat)
    (t : STree Key LeafItem h) :
    (settle ns k new h t).1 ≤ h ∧ (settle ns k new h t).nodes ≤ STree.nodes h t := by
  have hm := STree.mutate_nodes k new h t
  unfold settle
  split_ifs
  · exact hm
  · have hmg := merged_size ns (STree.mutate k new h t)
    exact ⟨hmg.1.trans hm.1, hmg.2.trans hm.2⟩

theorem Inserted.size (hins : Inserted ns k data h t s) :
    s.1 ≤ h + 1 ∧ s.nodes ≤ STree.nodes h t + h + 2 := by
  cases hins with
  | inPlace new hnew =>
    obtain ⟨hh, hn⟩ := settle_size ns k new h t
    omega
  | split l r s hne hsplit =>
    have hg := STree.grow_nodes LeafItem.k ⟨0, 0, 0⟩ h (STree.cut (nodeCap ns) k l r s h t)
    have hc := STree.cut_nodes (nodeCap ns) k l r s h t
    exact ⟨hg.1, by omega⟩

theorem Updated.size (hup : Updated ns k data h t s) : s.1 ≤ h ∧ s.nodes ≤ STree.nodes h t := by
  cases hup
  exact settle_size ns k _ h t

theorem Deleted.size (hdel : Deleted ns k h t s) : s.1 ≤ h ∧ s.nodes ≤ STree.nodes h t := by
  cases hdel
  exact settle_size ns k _ h t

end size

end Btrfs
