/-
  Btrfs/History.lean
  ==================
  **Searching a tree after a history of operations.**

  A tree that grew out of a single leaf is sound: its leaves are not empty and its
  separators bound their subtrees, so searches and walks agree on it.  One branch of the
  code can break this.  When the first leaf of an internal node is dropped, the parent
  keeps the separator of the dropped leaf; a key between that separator and the first
  one left is routed into the node, finds no separator at or below it there, and
  `tracePath` takes the leftmost child.  `searchTree` then stops at that node.  Histories
  in which no insertion takes that branch keep searches and walks in agreement.
-/
import Btrfs.Content
import Btrfs.Search

namespace Btrfs

open Lib LTree

variable {sb : Superblock} {v v' : Vol} {k : Key} {data : Bytes} {ns : Nat}

/-! ## 1. Sound shapes -/

/-- Separators bound their subtrees and no leaf is empty, except a leaf that is the whole tree. -/
structure Sound (s : STree.Any Key LeafItem) : Prop where
  ordered : STree.Ordered LeafItem.k s.1 s.2
  noEmpty : 0 < s.1 → STree.NoEmpty s.1 s.2

theorem Sound.full {s : STree.Any Key LeafItem} (hs : Sound s) : STree.Full s.1 s.2 := by
  obtain ⟨h, t⟩ := s
  cases h with
  | zero => trivial
  | succ h => exact (hs.noEmpty (Nat.succ_pos h)).full

theorem sorted_of_kv {l : List LeafItem}
    (hl : (l.map LeafItem.kv).Pairwise fun a b => a.1 < b.1) :
    l.Pairwise fun a b => a.k < b.k := by
  rw [List.pairwise_map] at hl
  exact hl

section settle

variable {h : Nat} {t : STree Key LeafItem h} {new : List LeafItem}

theorem merged_cases (ns : Nat) (s : STree.Any Key LeafItem) :
    merged ns s = s ∨ ∃ items, merged ns s = ⟨0, items⟩ := by
  unfold merged
  split
  · exact Or.inr ⟨_, rfl⟩
  · exact Or.inl rfl

/-- A merge of two leaves keeps a tree ordered. -/
theorem ordered_merged {s : STree.Any Key LeafItem} (hs : STree.Ordered LeafItem.k s.1 s.2) :
    STree.Ordered LeafItem.k (merged ns s).1 (merged ns s).2 := by
  have hkv := anyContents_merged ns s
  rcases merged_cases ns s with hm | ⟨items, hm⟩
  · rw [hm]
    exact hs
  · rw [hm] at hkv ⊢
    have hleaf : items.map LeafItem.kv = anyContents s := hkv
    apply sorted_of_kv
    rw [hleaf, anyContents, List.pairwise_map]
    exact hs.sorted

/-- What a mutation comes to, a merge of leaves apart. -/
theorem settle_cases (ns : Nat) (k : Key) (new : List LeafItem) (h : Nat)
    (t : STree Key LeafItem h) :
    settle ns k new h t = STree.mutate k new h t ∨
      settle ns k new h t = merged ns (STree.mutate k new h t) := by
  unfold settle
  split_ifs
  · exact Or.inl rfl
  · exact Or.inr rfl

/-- An edit that puts only keys of the leaf's range into the routed leaf keeps a tree ordered. -/
theorem ordered_settle (hord : STree.Ordered LeafItem.k h t) (hfull : STree.Full h t)
    (hnew : new.Pairwise fun a b => a.k < b.k) (hin : ∀ x ∈ new, STree.Inside k x.k h t) :
    STree.Ordered LeafItem.k (settle ns k new h t).1 (settle ns k new h t).2 := by
  have hmut : STree.Ordered LeafItem.k (STree.mutate k new h t).1 (STree.mutate k new h t).2 := by
    cases h with
    | zero => exact hnew
    | succ h =>
      rcases STree.mutate_cases k new h t with ⟨t', he, hm⟩ | ⟨q, hq, -, hm⟩ | ⟨-, hm⟩
      · rw [hm]
        exact hord.edit k hnew (h + 1) t t' hfull hin he
      · rw [hm]
        exact (hord.2 q hq).1
      · rw [hm]
        exact ⟨List.Pairwise.nil, nofun⟩
  rcases settle_cases ns k new h t with hs | hs <;> rw [hs]
  · exact hmut
  · exact ordered_merged hmut

/-- A property of all nodes that an edit keeps is kept by the whole mutation, unless that leaves a
    single leaf or empties the tree. -/
theorem settle_keeps {P : (h : Nat) → STree Key LeafItem h → Prop}
    {kids : List (Key × STree Key LeafItem h)} (hkid : ∀ q ∈ kids, P h q.2)
    (hedit : ∀ t', STree.edit k new (h + 1) kids = some t' → P (h + 1) t')
    (hne : anyContents (settle ns k new (h + 1) kids) ≠ [])
    (hpos : 0 < (settle ns k new (h + 1) kids).1) :
    P (settle ns k new (h + 1) kids).1 (settle ns k new (h + 1) kids).2 := by
  have hmut : anyContents (STree.mutate k new (h + 1) kids) ≠ [] →
      P (STree.mutate k new (h + 1) kids).1 (STree.mutate k new (h + 1) kids).2 := by
    intro hne
    rcases STree.mutate_cases k new h kids with ⟨t', he, hm⟩ | ⟨q, hq, -, hm⟩ | ⟨-, hm⟩
    · rw [hm]
      exact hedit t' he
    · rw [hm]
      exact hkid q hq
    · -- the tree lost its last item
      rw [hm] at hne
      exact absurd rfl hne
  rcases settle_cases ns k new (h + 1) kids with hs | hs
  · rw [hs] at hne ⊢
    exact hmut hne
  · rw [hs] at hne hpos ⊢
    rcases merged_cases ns (STree.mutate k new (h + 1) kids) with hm | ⟨items, hm⟩
    · rw [hm] at hne ⊢
      exact hmut hne
    · rw [hm] at hpos
      exact absurd hpos (Nat.lt_irrefl 0)

/-- An edit that puts only keys of the leaf's range into the routed leaf keeps a tree sound, unless
    it empties the tree. -/
theorem Sound.settle (hs : Sound ⟨h, t⟩) (hnew : new.Pairwise fun a b => a.k < b.k)
    (hin : ∀ x ∈ new, STree.Inside k x.k h t)
    (hne : anyContents (settle ns k new h t) ≠ [] ∨ h = 0) : Sound (settle ns k new h t) := by
  refine ⟨ordered_settle hs.ordered hs.full hnew hin, ?_⟩
  intro hpos
  cases h with
  | zero => exact absurd hpos (not_lt.mpr (settle_size ns k new 0 t).1)
  | succ h =>
    have hold := hs.noEmpty (Nat.succ_pos h)
    rcases hne with hne | hne
    · exact settle_keeps (P := STree.NoEmpty) hold.2 (hold.edit k new (h + 1) t) hne hpos
    · cases hne

end settle

theorem orderedInsert_sorted (data : Bytes) {recs : List (Key × Bytes)} (hs : recs.Pairwise fun a b => a.1 < b.1)
    (habs : ∀ r ∈ recs, r.1 ≠ k) :
    (recs.orderedInsert keyLE (k, data)).Pairwise fun a b => a.1 < b.1 := by
  induction recs with
  | nil => exact List.pairwise_singleton _ _
  | cons q recs ih =>
    obtain ⟨hq, hrest⟩ := List.pairwise_cons.mp hs
    rw [List.orderedInsert_cons]
    split_ifs with hle
    · have hlt : k < q.1 := lt_of_le_of_ne hle (habs q (by simp)).symm
      refine List.pairwise_cons.mpr ⟨?_, hs⟩
      intro r hr
      rcases List.mem_cons.mp hr with rfl | hr
      · exact hlt
      · exact hlt.trans (hq r hr)
    · refine List.pairwise_cons.mpr ⟨?_, ih hrest fun r hr => habs r (by simp [hr])⟩
      intro r hr
      rw [List.mem_orderedInsert] at hr
      rcases hr with rfl | hr
      · exact not_le.mp hle
      · exact hq r hr

/-! ## 2. Sound steps -/

section steps

variable {h : Nat} {t : STree Key LeafItem h} {s : STree.Any Key LeafItem}

/-- Keys of the routed leaf, and the key itself if it reaches the leaf, are in the leaf's range. -/
theorem inside_of_kv (hord : STree.Ordered LeafItem.k h t) (hfull : STree.Full h t)
    {new : List LeafItem}
    (hnew : ∀ q ∈ new.map LeafItem.kv, q.1 = k ∧ STree.Reaches k h t ∨
      ∃ r ∈ (STree.leafAt k h t).map LeafItem.kv, r.1 = q.1) :
    ∀ x ∈ new, STree.Inside k x.k h t := by
  intro x hx
  rcases hnew x.kv (List.mem_map_of_mem hx) with ⟨hk, hreach⟩ | ⟨r, hr, hrk⟩
  · have hxk : x.k = k := hk
    rw [hxk]
    exact hord.inside_of_reaches k h t hreach
  · obtain ⟨it, hit, rfl⟩ := List.mem_map.mp hr
    have hxk : it.k = x.k := hrk
    rw [← hxk]
    exact hord.inside_of_mem k h t hfull it hit

/-- The leaf's records with a new one, all in the leaf's range. -/
theorem inside_orderedInsert (hs : Sound ⟨h, t⟩) (hreach : STree.Reaches k h t)
    {new : List LeafItem}
    (hnew : new.map LeafItem.kv =
      ((STree.leafAt k h t).map LeafItem.kv).orderedInsert keyLE (k, data)) :
    ∀ x ∈ new, STree.Inside k x.k h t := by
  apply inside_of_kv hs.ordered hs.full
  intro q hq
  rw [hnew, List.mem_orderedInsert] at hq
  rcases hq with rfl | hq
  · exact Or.inl ⟨rfl, hreach⟩
  · exact Or.inr ⟨q, hq, rfl⟩

theorem Inserted.sound (hins : Inserted ns k data h t s) (hs : Sound ⟨h, t⟩)
    (habs : ∀ r ∈ anyContents ⟨h, t⟩, r.1 ≠ k) (hreach : STree.Reaches k h t) : Sound s := by
  have hcont := hins.contents hs.ordered hs.full habs
  have habs' := absent_leafAt hs.full habs
  have habsKv : ∀ r ∈ (STree.leafAt k h t).map LeafItem.kv, r.1 ≠ k := by
    intro r hr
    obtain ⟨it, hit, rfl⟩ := List.mem_map.mp hr
    exact habs' it hit
  have hsorted := orderedInsert_sorted data (kv_leaf_sorted hs.ordered hs.full k) habsKv
  cases hins with
  | inPlace new hnew =>
    have hkv := leafInsertItem_ok habs' hnew
    refine hs.settle ?_ (inside_orderedInsert hs hreach hkv) (Or.inl ?_)
    · apply sorted_of_kv
      rw [hkv]
      exact hsorted
    · rw [hcont]
      intro hnil
      have hlen := congrArg List.length hnil
      rw [List.orderedInsert_length] at hlen
      simp at hlen
  | split l r s hne hsplit =>
    have hkv := splitAndInsertLeaf_ok habs' hsplit
    obtain ⟨hl, it, hit, hits⟩ := splitAndInsertLeaf_parts hne hsplit
    have hr : r ≠ [] := by
      rintro rfl
      simp at hit
    have hlr : (l ++ r).Pairwise fun a b => a.k < b.k := by
      apply sorted_of_kv
      rw [hkv]
      exact hsorted
    obtain ⟨hls, hrs, hlt⟩ := List.pairwise_append.mp hlr
    have hitr : it ∈ r := List.mem_of_mem_head? hit
    have hbelow : ∀ x ∈ l, x.k < s := by
      intro x hx
      rw [← hits]
      exact hlt x hx it hitr
    have habove : ∀ x ∈ r, s ≤ x.k := by
      intro x hx
      rw [← hits]
      cases r with
      | nil => exact absurd rfl hr
      | cons y r =>
        obtain rfl : y = it := by simpa using hit
        rcases List.mem_cons.mp hx with rfl | hx
        · exact le_rfl
        · exact ((List.pairwise_cons.mp hrs).1 x hx).le
    have hin := inside_orderedInsert hs hreach hkv
    obtain ⟨hord, hnoe⟩ := (hs.ordered.cut (nodeCap ns) k hl hr hls hrs hbelow habove h t
      hs.noEmpty hin).grow ⟨0, 0, 0⟩
    exact ⟨hord, fun _ => hnoe⟩

theorem Updated.sound (hup : Updated ns k data h t s) (hs : Sound ⟨h, t⟩) : Sound s := by
  have hcont := hup.contents hs.ordered hs.full
  obtain ⟨new, idx, it, hit, rfl, hnew⟩ := hup
  have hkv := leafReplaceItemData_ok hit hnew
  rw [set_eq_map data _ idx _ (kv_leaf_sorted hs.ordered hs.full it.k) (getElem?_map_kv hit)] at hkv
  -- the keys of the leaf stay as they are
  have hkeys : ∀ q ∈ new.map LeafItem.kv,
      ∃ r ∈ (STree.leafAt it.k h t).map LeafItem.kv, r.1 = q.1 := by
    intro q hq
    rw [hkv] at hq
    obtain ⟨r, hr, rfl⟩ := List.mem_map.mp hq
    refine ⟨r, hr, ?_⟩
    split_ifs <;> rfl
  refine hs.settle ?_ (inside_of_kv hs.ordered hs.full fun q hq => Or.inr (hkeys q hq)) (Or.inl ?_)
  · apply sorted_of_kv
    rw [hkv, List.pairwise_map]
    refine (kv_leaf_sorted hs.ordered hs.full it.k).imp ?_
    intro a b hab
    split_ifs <;> exact hab
  · rw [hcont, replaceData, contents_around it.k hs.full]
    have hmem := List.mem_map_of_mem (f := LeafItem.kv) (List.mem_of_getElem? hit)
    intro hnil
    rw [List.map_eq_nil_iff, List.append_eq_nil_iff, List.append_eq_nil_iff] at hnil
    rw [hnil.1.2] at hmem
    simp at hmem

/-- A deletion that leaves an item behind. -/
theorem Deleted.sound (hdel : Deleted ns k h t s) (hs : Sound ⟨h, t⟩)
    (hless : ∃ r ∈ anyContents ⟨h, t⟩, r.1 < k) : Sound s := by
  have hcont := hdel.contents hs.ordered hs.full
  obtain ⟨idx, it, hit, rfl⟩ := hdel
  have hsub : ((leafDeleteItem (STree.leafAt it.k h t) idx).map LeafItem.kv).Sublist
      ((STree.leafAt it.k h t).map LeafItem.kv) := by
    rw [map_kv_leafDeleteItem]
    exact List.eraseIdx_sublist _ _
  refine hs.settle ?_ (inside_of_kv hs.ordered hs.full fun q hq => Or.inr ⟨q, hsub.subset hq, rfl⟩) (Or.inl ?_)
  · exact sorted_of_kv ((kv_leaf_sorted hs.ordered hs.full it.k).sublist hsub)
  · obtain ⟨r, hr, hlt⟩ := hless
    rw [hcont]
    apply List.ne_nil_of_mem (a := r)
    exact List.mem_filter.mpr ⟨hr, decide_eq_true hlt.ne⟩

end steps

/-! ## 3. Histories -/

/-- A tree that came out of a single leaf by successful operations: insertions of absent keys
    larger than the smallest one, updates, and deletions of keys that are not the smallest.  The
    last index is the sorted list the operations amount to; `ok` restricts the insertions. -/
inductive History (ok : Vol → Nat → Key → Prop) (sb : Superblock) :
    Nat → Vol → List (Key × Bytes) → Prop
  | leaf {v : Vol} (b : LeafBlk) (hvol : OnVol sb v (h := 0) b)
      (hsorted : b.items.Pairwise fun x y => x.k < y.k) :
      History ok sb b.addr v (b.items.map LeafItem.kv)
  | insert {root r : Nat} {v v' : Vol} {recs : List (Key × Bytes)} (k : Key) (data : Bytes)
      (hist : History ok sb root v recs) (habs : ∀ q ∈ recs, q.1 ≠ k) (hless : ∃ q ∈ recs, q.1 < k)
      (hok : ok v root k) (hrun : cowInsert sb root k data v = .ok r v') :
      History ok sb r v' (recs.orderedInsert keyLE (k, data))
  | update {root r : Nat} {v v' : Vol} {recs : List (Key × Bytes)} (k : Key) (data : Bytes)
      (hist : History ok sb root v recs) (hrun : cowUpdate sb root k data v = .ok r v') :
      History ok sb r v' (replaceData k data recs)
  | delete {root r : Nat} {v v' : Vol} {recs : List (Key × Bytes)} (k : Key)
      (hist : History ok sb root v recs) (hless : ∃ q ∈ recs, q.1 < k)
      (hrun : cowDelete sb root k v = .ok r v') :
      History ok sb r v' (recs.filter fun q => decide (q.1 ≠ k))

/-- `tracePath` never takes the leftmost child of a node all of whose separators exceed the key. -/
def NoFallback (sb : Superblock) (v : Vol) (root : Nat) (k : Key) : Prop :=
  ∀ path, tracePath sb v.dev root k = .ok path →
    ∀ pe ∈ path.inner, ∀ p ∈ pe.ptrs.head?, p.k ≤ k

instance (sb : Superblock) (v : Vol) (root : Nat) (k : Key) : Decidable (NoFallback sb v root k) :=
  match h : tracePath sb v.dev root k with
  | .error _ => isTrue fun path hp => by rw [h] at hp; cases hp
  | .ok path => decidable_of_iff (∀ pe ∈ path.inner, ∀ p ∈ pe.ptrs.head?, p.k ≤ k) <| by
      rw [NoFallback, h]
      simp

theorem reaches_of_trace (k : Key) : ∀ (h : Nat) (t : LTree h), STree.Full h (shape h t) →
    (∀ pe ∈ (trace k h t).inner, ∀ p ∈ pe.ptrs.head?, p.k ≤ k) →
    STree.Reaches k h (shape h t) := by
  intro h
  induction h with
  | zero => intro t _ _; trivial
  | succ h ih =>
    intro (b : NodeBlk (LTree h)) hfull hpath
    obtain ⟨hne, hfk⟩ := shape_full_kids hfull
    obtain ⟨A, c, B, hf⟩ := focus_isSome Kid.sep k hne
    obtain ⟨hl, -⟩ := focus_eq_some hf
    simp only [trace, hf, List.mem_cons, forall_eq_or_imp] at hpath
    obtain ⟨hhead, hrest⟩ := hpath
    simp only [shape, STree.Reaches, focus_shape hf]
    refine ⟨?_, ih c.sub (hfk c (focus_mem hf)) hrest⟩
    cases A with
    | nil =>
      rw [hl] at hhead
      exact hhead (ptr h c) rfl
    | cons a A => exact focus_le hf (List.cons_ne_nil a A)

/-- What every history without a fallback keeps. -/
theorem History.invariant {root : Nat} {recs : List (Key × Bytes)}
    (hist : History (NoFallback sb) sb root v recs) :
    ∃ s, Stands sb v root s ∧ Sound s ∧ anyContents s = recs := by
  induction hist with
  | leaf b hvol hsorted =>
    exact ⟨⟨0, b.items⟩, ⟨b, rfl, hvol, rfl⟩,
      ⟨hsorted, fun hpos => absurd hpos (Nat.lt_irrefl 0)⟩, rfl⟩
  | insert k data hist habs hless hok hrun ih =>
    obtain ⟨s, hst₀, hs, rfl⟩ := ih
    obtain ⟨h, t, rfl, ht, rfl⟩ := hst₀.elim
    have htree : TreeOk sb _ t := ⟨ht, hs.full⟩
    have hns : 0 < sb.nodeSize := lt_of_lt_of_le (by decide) ht.vol.nodeSize_ge
    obtain ⟨hd, -, s', hst, hins⟩ := cowInsert_spec htree hrun
    have hpath := tracePath_held hns ht.held ht.apart hs.full k
    rw [if_pos hd] at hpath
    have hreach := reaches_of_trace k h t hs.full (hok _ hpath)
    exact ⟨s', hst, hins.sound hs habs hreach, hins.contents hs.ordered hs.full habs⟩
  | update k data hist hrun ih =>
    obtain ⟨s, hst₀, hs, rfl⟩ := ih
    obtain ⟨h, t, rfl, ht, rfl⟩ := hst₀.elim
    obtain ⟨-, -, s', hst, hup⟩ := cowUpdate_spec ⟨ht, hs.full⟩ hrun
    exact ⟨s', hst, hup.sound hs, hup.contents hs.ordered hs.full⟩
  | delete k hist hless hrun ih =>
    obtain ⟨s, hst₀, hs, rfl⟩ := ih
    obtain ⟨h, t, rfl, ht, rfl⟩ := hst₀.elim
    obtain ⟨-, -, s', hst, hdel⟩ := cowDelete_spec ⟨ht, hs.full⟩ hrun
    exact ⟨s', hst, hdel.sound hs hless, hdel.contents hs.ordered hs.full⟩

/-- The answer of `collectPrefixItems` when these are the matching records. -/
def collected (objID typ : Nat) : List (Key × Bytes) → Except Err (List (Key × Bytes))
  | [] => .error (.wrap "btrfs: no items for objID=%d type=0x%02X: %w" [.num objID, .num typ]
      (.sentinel .errNotFound))
  | recs => .ok recs

theorem collectPrefixItems_eq {root objID typ : Nat} {items : List LeafItem}
    (h : walkPrefixLeaves sb v.dev root objID typ = .ok items) :
    collectPrefixItems sb v.dev root objID typ = collected objID typ (items.map LeafItem.kv) := by
  rw [collectPrefixItems, h]
  cases items <;> rfl

/-- In a list with increasing keys, the first record with a key is the only one. -/
theorem find?_kv_iff {l : List LeafItem} (hl : l.Pairwise fun a b => a.k < b.k) (k : Key)
    (d : Bytes) :
    (∃ it, (l.find? fun it => decide (it.k = k)) = some it ∧ it.kv = (k, d)) ↔
      (k, d) ∈ l.map LeafItem.kv := by
  induction l with
  | nil => simp
  | cons x l ih =>
    obtain ⟨hx, hrest⟩ := List.pairwise_cons.mp hl
    rw [List.map_cons, List.mem_cons]
    by_cases hk : x.k = k
    · have hnot : (k, d) ∉ l.map LeafItem.kv := by
        intro hm
        obtain ⟨y, hy, hyk⟩ := List.mem_map.mp hm
        have hyk' : y.k = k := congrArg Prod.fst hyk
        exact (hx y hy).ne (hk.trans hyk'.symm)
      rw [List.find?_cons_of_pos (by simpa using hk)]
      simp [hnot, eq_comm]
    · rw [List.find?_cons_of_neg (by simpa using hk), ih hrest]
      constructor
      · exact Or.inr
      · rintro (hm | hm)
        · exact absurd (congrArg Prod.fst hm).symm hk
        · exact hm

/-- **Searches agree with walks after every history without a fallback.** -/
theorem search_agrees_with_walk {root : Nat} {recs : List (Key × Bytes)}
    (hist : History (NoFallback sb) sb root v recs)
    (hwalk : (walkLeaves sb v.dev root).2 = none) :
    walked sb v.dev root = recs ∧
    (∀ k d, (∃ it, searchTree sb v.dev root k = .ok it ∧ it.kv = (k, d)) ↔
      (k, d) ∈ walked sb v.dev root) ∧
    ∀ objID typ, collectPrefixItems sb v.dev root objID typ =
      collected objID typ ((walked sb v.dev root).filter (recHasPrefix objID typ)) := by
  obtain ⟨s, hst, hs, rfl⟩ := hist.invariant
  obtain ⟨h, t, rfl, ht, rfl⟩ := hst.elim
  have hns : 0 < sb.nodeSize := lt_of_lt_of_le (by decide) ht.vol.nodeSize_ge
  obtain ⟨hd, hcount⟩ := walkLeaves_limits ht.held hs.full hwalk
  have hwalked : walked sb v.dev (addr h t) = anyContents ⟨h, shape h t⟩ := ht.lists.listed hwalk
  rw [hwalked]
  refine ⟨rfl, ?_, ?_⟩
  · intro k d
    have hlook := lookup_eq k h (shape h t) hs.ordered hs.full
    have hfind := find?_kv_iff (l := STree.items h (shape h t)) hs.ordered.sorted k d
    rw [searchTree_held hns ht.held ht.apart hs.full hd k, hlook]
    refine Iff.trans ?_ hfind
    cases (STree.items h (shape h t)).find? fun it => decide (it.k = k) with
    | none => simp [found]
    | some it => simp [found]
  · intro objID typ
    have hpre := walkPrefixLeaves_held hns ht.held ht.apart hd hcount objID typ
    rw [prefixItems_eq objID typ h _ hs.ordered] at hpre
    rw [collectPrefixItems_eq hpre, anyContents, List.filter_map]
    rfl

/-! ### Two histories of one leaf -/

def oneLeaf : LeafBlk := ⟨1024, ⟨1024, 1⟩, [smallItem 1, smallItem 2]⟩

def oneLeafVol : Vol where
  dev := [⟨1024, 168, .node (node 0 oneLeaf)⟩]
  sm := ⟨[⟨1192, 7000⟩], 168⟩

/-- A leaf in the first block. -/
def soleLeaf (l : List LeafItem) : LeafBlk := ⟨1024, ⟨1024, 1⟩, l⟩

def soleVol (l : List LeafItem) : Vol where
  dev := [⟨1024, 168, .node (node 0 (soleLeaf l))⟩]
  sm := ⟨[⟨1192, 7000⟩], 168⟩

theorem soleLeaf_onVol (l : List LeafItem) : OnVol smallSb (soleVol l) (h := 0) (soleLeaf l) := by
  have hfree : (soleVol l).sm.free = (⟨1192, 7000⟩ : Span).bytes := by
    simp [soleVol, SpaceManager.free]
  have hblk : foot smallSb 0 (soleLeaf l) = blk smallSb 1024 := rfl
  have hfoot : foot smallSb 0 (soleLeaf l) = (⟨1024, 168⟩ : Span).bytes := hblk.trans blk_smallSb.1
  have husable : ∀ p, 1024 ≤ p → p < 8192 → p ∈ usable smallSb :=
    fun p h₁ h₂ => usable_smallSb ⟨h₁, h₂⟩
  have hnode : nodeHdrSize ≤ smallSb.nodeSize := by decide
  have hread : readNode smallSb (soleVol l).dev 1024 = .ok (node 0 (soleLeaf l)) := rfl
  refine ⟨⟨hnode, rfl, List.pairwise_singleton _ _, List.pairwise_singleton _ _, ?_⟩, hread,
    trivial, ?_, ?_⟩
  · rw [hfree]
    intro p hp
    rw [Span.mem_bytes] at hp
    apply husable p <;> simp only at hp <;> omega
  · rw [hfree, hfoot]
    exact Span.disjoint_of_le (s := ⟨1024, 168⟩) (t := ⟨1192, 7000⟩) (by decide)
  · rw [hfoot]
    intro p hp
    rw [Span.mem_bytes] at hp
    apply husable p <;> simp only at hp <;> omega

theorem oneLeaf_onVol : OnVol smallSb oneLeafVol (h := 0) oneLeaf :=
  soleLeaf_onVol [smallItem 1, smallItem 2]

/-- Two insertions grow the leaf into a tree of height 2. -/
def inserted3 : Nat × Vol := outcome 0 (cowInsert smallSb 1024 ⟨3, 1, 0⟩ [] oneLeafVol)

def inserted4 : Nat × Vol := outcome 0 (cowInsert smallSb inserted3.1 ⟨4, 1, 0⟩ [] inserted3.2)

theorem history_inserted4 :
    History (NoFallback smallSb) smallSb inserted4.1 inserted4.2
      [(⟨1, 1, 0⟩, []), (⟨2, 1, 0⟩, []), (⟨3, 1, 0⟩, []), (⟨4, 1, 0⟩, [])] := by
  have h₀ : History (NoFallback smallSb) smallSb 1024 oneLeafVol _ :=
    .leaf oneLeaf oneLeaf_onVol (by decide)
  have h₁ := h₀.insert ⟨3, 1, 0⟩ [] (by decide) (by decide) (by decide +kernel)
    (eq_ok_of_succeeded 0 (by decide +kernel))
  exact h₁.insert ⟨4, 1, 0⟩ [] (by decide) (by decide)
    (show NoFallback smallSb inserted3.2 inserted3.1 _ by decide +kernel)
    (eq_ok_of_succeeded 0
      (show succeeded (cowInsert smallSb inserted3.1 _ _ inserted3.2) = true by decide +kernel))

theorem search_agrees_inserted4 :
    searchTree smallSb inserted4.2.dev inserted4.1 ⟨2, 1, 0⟩ = .ok (smallItem 2) ∧
    ((⟨2, 1, 0⟩, []) ∈ walked smallSb inserted4.2.dev inserted4.1) ∧
    collectPrefixItems smallSb inserted4.2.dev inserted4.1 3 1 = .ok [(⟨3, 1, 0⟩, [])] := by
  have hagree := search_agrees_with_walk history_inserted4 (by decide +kernel)
  have hfound : searchTree smallSb inserted4.2.dev inserted4.1 ⟨2, 1, 0⟩ = .ok (smallItem 2) := by
    decide +kernel
  refine ⟨hfound, (hagree.2.1 _ _).mp ⟨_, hfound, rfl⟩, ?_⟩
  rw [hagree.2.2 3 1, hagree.1]
  decide

/-- The second leaf is emptied and dropped, and its key comes back through the leftmost child. -/
def deleted2 : Nat × Vol := outcome 0 (cowDelete smallSb inserted4.1 ⟨2, 1, 0⟩ inserted4.2)

def reinserted2 : Nat × Vol := outcome 0 (cowInsert smallSb deleted2.1 ⟨2, 1, 0⟩ [] deleted2.2)

theorem search_misses_reinserted2 :
    ∃ recs, History (fun _ _ _ => True) smallSb reinserted2.1 reinserted2.2 recs ∧
      (walkLeaves smallSb reinserted2.2.dev reinserted2.1).2 = none ∧
      (⟨2, 1, 0⟩, []) ∈ walked smallSb reinserted2.2.dev reinserted2.1 ∧
      searchTree smallSb reinserted2.2.dev reinserted2.1 ⟨2, 1, 0⟩ =
        .error (errKeyNotFound ⟨2, 1, 0⟩) ∧
      collectPrefixItems smallSb reinserted2.2.dev reinserted2.1 2 1 = collected 2 1 [] := by
  have h₀ : History (fun _ _ _ => True) smallSb 1024 oneLeafVol _ :=
    .leaf oneLeaf oneLeaf_onVol (by decide)
  have h₁ := h₀.insert ⟨3, 1, 0⟩ [] (by decide) (by decide) trivial
    (eq_ok_of_succeeded 0 (by decide +kernel))
  have h₂ := h₁.insert ⟨4, 1, 0⟩ [] (by decide) (by decide) trivial
    (eq_ok_of_succeeded 0
      (show succeeded (cowInsert smallSb inserted3.1 _ _ inserted3.2) = true by decide +kernel))
  have h₃ := h₂.delete ⟨2, 1, 0⟩ (by decide)
    (eq_ok_of_succeeded 0
      (show succeeded (cowDelete smallSb inserted4.1 _ inserted4.2) = true by decide +kernel))
  have h₄ := h₃.insert ⟨2, 1, 0⟩ [] (by decide) (by decide) trivial
    (eq_ok_of_succeeded 0
      (show succeeded (cowInsert smallSb deleted2.1 _ _ deleted2.2) = true by decide +kernel))
  exact ⟨_, h₄, by decide +kernel, by decide +kernel, by decide +kernel, by decide +kernel⟩

end Btrfs
