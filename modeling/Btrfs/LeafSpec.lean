/-
  Btrfs/LeafSpec.lean
  ===================
  **What the leaf primitives do to the `(key, data)` list of a leaf.**

  Data offsets move around when a leaf is repacked; the list of pairs a leaf stands for
  changes by exactly one list operation.
-/
import Btrfs.Cow

namespace Btrfs

open Lib

variable {ns : Nat} {items items' : List LeafItem} {k : Key} {data : Bytes}

/-! ## 1. Packing -/

theorem map_kv_packFrom (recs : List (Key × Bytes)) :
    ∀ cursor, (packFrom cursor recs).map LeafItem.kv = recs := by
  induction recs with
  | nil => intro cursor; rfl
  | cons r recs ih =>
    intro cursor
    obtain ⟨k, d⟩ := r
    simp only [packFrom, List.map_cons, ih, LeafItem.kv]

/-- The bytes a list of records takes in a leaf, descriptors included. -/
def packedSize (recs : List (Key × Bytes)) : Nat :=
  recs.length * itemSize + (recs.map fun r => r.2.length).sum

/-- Building a leaf from records succeeds when they fit, and packs them. -/
theorem buildLeafFrom_eq (recs : List (Key × Bytes)) : ∀ (i writePtr : Nat), writePtr ≤ ns →
    (nodeHdrSize + i * itemSize + (ns - writePtr) + packedSize recs ≤ ns →
      buildLeafFrom ns i writePtr recs = .ok (packFrom writePtr recs)) ∧
    (∀ l, buildLeafFrom ns i writePtr recs = .ok l → l = packFrom writePtr recs ∧
      (recs ≠ [] → nodeHdrSize + i * itemSize + (ns - writePtr) + packedSize recs ≤ ns)) := by
  induction recs with
  | nil =>
    intro i writePtr _
    refine ⟨fun _ => rfl, ?_⟩
    intro l hl
    simp only [buildLeafFrom, Except.ok.injEq] at hl
    exact ⟨hl.symm, fun hne => absurd rfl hne⟩
  | cons r recs ih =>
    intro i writePtr hw
    obtain ⟨k, d⟩ := r
    obtain ⟨ih₁, ih₂⟩ := ih (i + 1) (writePtr - d.length) (by omega)
    have hsize : packedSize ((k, d) :: recs) = itemSize + d.length + packedSize recs := by
      simp only [packedSize, List.length_cons, List.map_cons, List.sum_cons]
      rw [Nat.add_mul]
      omega
    have hi : (i + 1) * itemSize = i * itemSize + itemSize := by rw [Nat.add_mul, Nat.one_mul]
    constructor
    · intro hfit
      rw [hsize] at hfit
      rw [hi] at ih₁
      simp only [buildLeafFrom, hi]
      rw [if_neg (by omega), ih₁ (by omega)]
      rfl
    · intro l hl
      simp only [buildLeafFrom, hi] at hl
      rw [hi] at ih₂
      split_ifs at hl with hbig
      cases hrest : buildLeafFrom ns (i + 1) (writePtr - d.length) recs with
      | error e => rw [hrest] at hl; cases hl
      | ok rest =>
        rw [hrest] at hl
        simp only [Except.ok.injEq] at hl
        obtain ⟨hpack, hfit⟩ := ih₂ rest hrest
        refine ⟨by rw [← hl, hpack]; rfl, ?_⟩
        intro _
        rw [hsize]
        by_cases hnil : recs = []
        · subst hnil
          simp only [packedSize, List.length_nil, List.map_nil, List.sum_nil]
          omega
        · have := hfit hnil
          omega

theorem buildLeafFromItems_ok {recs : List (Key × Bytes)} {l : List LeafItem}
    (h : buildLeafFromItems ns recs = .ok l) : l = packFrom ns recs :=
  ((buildLeafFrom_eq recs 0 ns le_rfl).2 l h).1

theorem buildLeafFromItems_fits {recs : List (Key × Bytes)}
    (h : nodeHdrSize + packedSize recs ≤ ns) : buildLeafFromItems ns recs = .ok (packFrom ns recs) :=
  (buildLeafFrom_eq recs 0 ns le_rfl).1 (by omega)

/-! ## 2. Insertion -/

/-- Comparison of records by key. -/
def keyLE (a b : Key × Bytes) : Prop := a.1 ≤ b.1

instance : DecidableRel keyLE := fun a b => inferInstanceAs (Decidable (a.1 ≤ b.1))

/-- The position found by the scan is the sorted position. -/
theorem insertIdx_insertPos (data : Bytes) : ∀ (recs : List (Key × Bytes)),
    (∀ r ∈ recs, r.1 ≠ k) →
    recs.insertIdx (insertPos recs k) (k, data) = recs.orderedInsert keyLE (k, data) := by
  intro recs
  induction recs with
  | nil => intro _; rfl
  | cons r recs ih =>
    intro habs
    have hr : r.1 ≠ k := habs r (by simp)
    have ih := ih fun q hq => habs q (by simp [hq])
    rw [List.orderedInsert_cons]
    by_cases hlt : k < r.1
    · have hpos : insertPos (r :: recs) k = 0 := by
        simp only [insertPos, List.findIdx_cons]
        rw [decide_eq_true (compareKeys_pos.mpr hlt)]
        rfl
      have hle : keyLE (k, data) r := hlt.le
      rw [hpos, if_pos hle]
      rfl
    · have hpos : insertPos (r :: recs) k = insertPos recs k + 1 := by
        simp only [insertPos, List.findIdx_cons]
        rw [decide_eq_false (compareKeys_pos.not.mpr hlt)]
        rfl
      have hle : ¬ keyLE (k, data) r := by
        intro hle
        exact hlt (lt_of_le_of_ne hle (Ne.symm hr))
      rw [hpos, if_neg hle, List.insertIdx_succ_cons, ih]

theorem length_insertIdx_insertPos (recs : List (Key × Bytes)) (k : Key) (r : Key × Bytes) :
    (recs.insertIdx (insertPos recs k) r).length = recs.length + 1 := by
  have hle : insertPos recs k ≤ recs.length := List.findIdx_le_length
  rw [List.length_insertIdx, if_pos hle]

theorem leafInsertItem_ok (habs : ∀ it ∈ items, it.k ≠ k)
    (h : leafInsertItem ns items k data = .ok items') :
    items'.map LeafItem.kv = (items.map LeafItem.kv).orderedInsert keyLE (k, data) := by
  simp only [leafInsertItem] at h
  split_ifs at h
  simp only [Except.ok.injEq] at h
  rw [← h, map_kv_packFrom, insertIdx_insertPos]
  intro r hr
  obtain ⟨it, hit, rfl⟩ := List.mem_map.mp hr
  exact habs it hit

/-! ## 3. Replacement and deletion -/

theorem findItemIdx_some {idx : Nat} (h : findItemIdx items k.objID k.typ k.offset = some idx) :
    ∃ it, items[idx]? = some it ∧ it.k = k := by
  obtain ⟨hlt, hp, -⟩ := List.findIdx?_eq_some_iff_getElem.mp h
  refine ⟨items[idx], List.getElem?_eq_getElem hlt, ?_⟩
  simp only [decide_eq_true_eq] at hp
  rw [Key.ext_iff']
  exact hp

theorem leafReplaceItemData_ok {idx : Nat} {it : LeafItem} (hidx : items[idx]? = some it)
    (h : leafReplaceItemData ns items idx data = .ok items') :
    items'.map LeafItem.kv = (items.map LeafItem.kv).set idx (it.k, data) := by
  simp only [leafReplaceItemData, hidx] at h
  split_ifs at h
  · simp only [Except.ok.injEq] at h
    rw [← h, List.map_set]
    rfl
  · simp only [Except.ok.injEq] at h
    rw [← h, map_kv_packFrom]

theorem map_kv_leafDeleteItem (idx : Nat) :
    (leafDeleteItem items idx).map LeafItem.kv = (items.map LeafItem.kv).eraseIdx idx := by
  rw [leafDeleteItem]
  split
  · next hnone =>
    rw [List.eraseIdx_of_length_le]
    simpa using hnone
  · next del hsome =>
    rw [List.eraseIdx_map, List.map_map]
    congr 1
    funext it
    simp only [Function.comp]
    split_ifs <;> rfl

/-- In a list without repeated keys, erasing at the position of a key is filtering it out. -/
theorem eraseIdx_eq_filter : ∀ (recs : List (Key × Bytes)) (idx : Nat) (r : Key × Bytes),
    (recs.Pairwise fun a b => a.1 < b.1) → recs[idx]? = some r →
    recs.eraseIdx idx = recs.filter fun q => decide (q.1 ≠ r.1) := by
  intro recs
  induction recs with
  | nil => intro idx r _ h; simp at h
  | cons q recs ih =>
    intro idx r hs h
    obtain ⟨hq, hs⟩ := List.pairwise_cons.mp hs
    cases idx with
    | zero =>
      simp only [List.getElem?_cons_zero, Option.some.injEq] at h
      subst h
      have hall : recs.filter (fun p => decide (p.1 ≠ q.1)) = recs := by
        rw [List.filter_eq_self]
        intro p hp
        exact decide_eq_true (hq p hp).ne'
      simp only [List.eraseIdx_cons_zero, List.filter_cons, ne_eq, not_true_eq_false, decide_false,
        Bool.false_eq_true, ↓reduceIte]
      exact hall.symm
    | succ idx =>
      simp only [List.getElem?_cons_succ] at h
      have hne : q.1 ≠ r.1 := (hq r (List.mem_of_getElem? h)).ne
      simp only [List.eraseIdx_cons_succ, ih idx r hs h, List.filter_cons, ne_eq, hne,
        not_false_eq_true, decide_true, ↓reduceIte]

/-- In a list without repeated keys, setting at the position of a key is replacing its data. -/
theorem set_eq_map (data : Bytes) : ∀ (recs : List (Key × Bytes)) (idx : Nat) (r : Key × Bytes),
    (recs.Pairwise fun a b => a.1 < b.1) → recs[idx]? = some r →
    recs.set idx (r.1, data) = recs.map fun q => if q.1 = r.1 then (q.1, data) else q := by
  intro recs
  induction recs with
  | nil => intro idx r _ h; simp at h
  | cons q recs ih =>
    intro idx r hs h
    obtain ⟨hq, hs⟩ := List.pairwise_cons.mp hs
    cases idx with
    | zero =>
      simp only [List.getElem?_cons_zero, Option.some.injEq] at h
      subst h
      have hall : recs.map (fun p => if p.1 = q.1 then (p.1, data) else p) = recs.map id := by
        apply List.map_congr_left
        intro p hp
        exact if_neg (hq p hp).ne'
      simp [hall]
    | succ idx =>
      simp only [List.getElem?_cons_succ] at h
      have hne : q.1 ≠ r.1 := (hq r (List.mem_of_getElem? h)).ne
      simp only [List.set_cons_succ, ih idx r hs h, List.map_cons, hne, ↓reduceIte]

/-- Erasing the matching positions from the last to the first leaves the other records. -/
theorem foldl_eraseIdx_findIdxs {α : Type} (p : α → Bool) : ∀ (l : List α),
    (l.findIdxs p).reverse.foldl List.eraseIdx l = l.filter fun a => !p a := by
  intro l
  rw [List.foldl_reverse]
  -- positions below a head element act on the tail
  have hshift : ∀ (js : List Nat) (a : α) (l : List α),
      (js.map (· + 1)).foldr (fun j l => l.eraseIdx j) (a :: l) =
        a :: js.foldr (fun j l => l.eraseIdx j) l := by
    intro js a l
    induction js with
    | nil => rfl
    | cons j js ih => simp only [List.map_cons, List.foldr_cons, ih, List.eraseIdx_cons_succ]
  induction l with
  | nil => rfl
  | cons a l ih =>
    rw [List.findIdxs_cons, List.findIdxs_start (s := 0 + 1)]
    simp only [Nat.zero_add]
    by_cases hp : p a
    · simp only [hp, ↓reduceIte, List.foldr_cons, hshift, ih, List.eraseIdx_cons_zero,
        List.filter_cons, Bool.not_true, Bool.false_eq_true]
    · simp only [hp, Bool.false_eq_true, ↓reduceIte, hshift, ih, List.filter_cons, Bool.not_false]

theorem map_kv_foldl_leafDeleteItem (js : List Nat) : ∀ (items : List LeafItem),
    (js.foldl leafDeleteItem items).map LeafItem.kv =
      js.foldl List.eraseIdx (items.map LeafItem.kv) := by
  induction js with
  | nil => intro items; rfl
  | cons j js ih =>
    intro items
    simp only [List.foldl_cons, ih, map_kv_leafDeleteItem]

/-- The record's objectid and type are the given ones. -/
def recHasPrefix (objID typ : Nat) (r : Key × Bytes) : Bool :=
  decide (r.1.objID = objID ∧ r.1.typ = typ)

/-- A leaf that holds a match loses exactly its matches; one that holds none is refused. -/
theorem leafDeletePrefix_spec (objID typ : Nat) (items : List LeafItem) :
    (∀ items', leafDeletePrefix objID typ items = .ok items' →
      items'.map LeafItem.kv =
        (items.map LeafItem.kv).filter fun r => !recHasPrefix objID typ r) ∧
    ((∃ items', leafDeletePrefix objID typ items = .ok items') ↔
      ∃ it ∈ items, it.hasPrefix objID typ = true) := by
  have hidx : (items.map LeafItem.kv).findIdxs (recHasPrefix objID typ) =
      findItemIdxPrefix items objID typ := by
    rw [List.findIdxs_map]
    rfl
  have hempty : (findItemIdxPrefix items objID typ).isEmpty = true ↔
      ¬ ∃ it ∈ items, it.hasPrefix objID typ = true := by
    rw [List.isEmpty_iff, findItemIdxPrefix, List.findIdxs_eq_nil_iff]
    simp
  constructor
  · intro items' h
    simp only [leafDeletePrefix] at h
    split_ifs at h
    simp only [Except.ok.injEq] at h
    rw [← h, map_kv_foldl_leafDeleteItem, ← hidx, foldl_eraseIdx_findIdxs]
  · simp only [leafDeletePrefix]
    split_ifs with he
    · simpa using hempty.mp he
    · simp only [Except.ok.injEq, exists_eq', true_iff]
      exact not_not.mp (hempty.not.mp he)

/-! ## 4. Splitting -/

theorem scanSplit_pos (target : Nat) (recs : List (Key × Bytes)) :
    ∀ cum i, 1 ≤ scanSplit target cum i recs := by
  induction recs with
  | nil => intro cum i; exact le_rfl
  | cons r recs ih =>
    intro cum i
    rw [scanSplit]
    split_ifs
    · omega
    · exact ih _ _

/-- The cut leaves at least one record on each side. -/
theorem splitPoint_bounds {all : List (Key × Bytes)} (h : 2 ≤ all.length) :
    1 ≤ splitPoint all ∧ splitPoint all < all.length := by
  simp only [splitPoint]
  have hpos := scanSplit_pos ((all.map fun r => r.2.length).sum / 2) all.dropLast 0 0
  split_ifs <;> omega

/-- The two leaves of a split, and its key. -/
theorem splitAndInsertLeaf_inv {l r : List LeafItem} {s : Key} {all : List (Key × Bytes)}
    (hall : (items.map LeafItem.kv).insertIdx (insertPos (items.map LeafItem.kv) k) (k, data) = all)
    (h : splitAndInsertLeaf ns items k data = .ok (l, r, s)) :
    buildLeafFromItems ns (all.take (splitPoint all)) = .ok l ∧
      buildLeafFromItems ns (all.drop (splitPoint all)) = .ok r ∧
      s = firstKey (all.drop (splitPoint all)) := by
  simp only [splitAndInsertLeaf, hall] at h
  cases hl : buildLeafFromItems ns (all.take (splitPoint all)) with
  | error e => rw [hl] at h; cases h
  | ok l' =>
    cases hr : buildLeafFromItems ns (all.drop (splitPoint all)) with
    | error e => rw [hl, hr] at h; cases h
    | ok r' =>
      rw [hl, hr] at h
      simp only [bind, Except.bind, pure, Except.pure, throw, throwThe, MonadExceptOf.throw] at h
      split_ifs at h
      simp only [Except.ok.injEq, Prod.mk.injEq] at h
      obtain ⟨rfl, rfl, rfl⟩ := h
      exact ⟨rfl, rfl, rfl⟩

/-- A leaf with items is split into two with items, and the key is the first of the right one. -/
theorem splitAndInsertLeaf_parts {l r : List LeafItem} {s : Key} (hne : items ≠ [])
    (h : splitAndInsertLeaf ns items k data = .ok (l, r, s)) :
    l ≠ [] ∧ ∃ it ∈ r.head?, it.k = s := by
  generalize hall : (items.map LeafItem.kv).insertIdx (insertPos (items.map LeafItem.kv) k)
    (k, data) = all
  obtain ⟨hl, hr, rfl⟩ := splitAndInsertLeaf_inv hall h
  have hlen : all.length = items.length + 1 := by
    rw [← hall, length_insertIdx_insertPos, List.length_map]
  have hpos := List.length_pos_of_ne_nil hne
  obtain ⟨hsp, hsp'⟩ := splitPoint_bounds (show 2 ≤ all.length by omega)
  have hkl : l.map LeafItem.kv = all.take (splitPoint all) := by
    rw [buildLeafFromItems_ok hl, map_kv_packFrom]
  have hkr : r.map LeafItem.kv = all.drop (splitPoint all) := by
    rw [buildLeafFromItems_ok hr, map_kv_packFrom]
  constructor
  · rintro rfl
    have hlen' := congrArg List.length hkl
    simp only [List.map_nil, List.length_nil, List.length_take] at hlen'
    omega
  · cases r with
    | nil =>
      have hlen' := congrArg List.length hkr
      simp only [List.map_nil, List.length_nil, List.length_drop] at hlen'
      omega
    | cons it r =>
      refine ⟨it, rfl, ?_⟩
      rw [← hkr]
      rfl

/-- Both halves together are the old records with the new one at its sorted position. -/
theorem splitAndInsertLeaf_ok {l r : List LeafItem} {s : Key} (habs : ∀ it ∈ items, it.k ≠ k)
    (h : splitAndInsertLeaf ns items k data = .ok (l, r, s)) :
    (l ++ r).map LeafItem.kv = (items.map LeafItem.kv).orderedInsert keyLE (k, data) := by
  have habs' : ∀ q ∈ items.map LeafItem.kv, q.1 ≠ k := by
    intro q hq
    obtain ⟨it, hit, rfl⟩ := List.mem_map.mp hq
    exact habs it hit
  obtain ⟨hl, hr, -⟩ := splitAndInsertLeaf_inv (insertIdx_insertPos data _ habs') h
  rw [List.map_append, buildLeafFromItems_ok hl, buildLeafFromItems_ok hr, map_kv_packFrom,
    map_kv_packFrom, List.take_append_drop]

/-- An item that an empty leaf refuses cannot be placed by a split either. -/
theorem leafInsertItem_nil_full {e : Err} (h : leafInsertItem ns [] k data = .error e) :
    ∀ x, splitAndInsertLeaf ns items k data ≠ .ok x := by
  intro x hx
  have hbig : ns - nodeHdrSize < itemSize + data.length := by
    have hend : dataAreaEnd ns [] = ns := rfl
    have hlen : ([] : List LeafItem).length = 0 := rfl
    simp only [leafInsertItem] at h
    split_ifs at h with hlt
    simp only [hend, hlen, itemSize, nodeHdrSize] at hlt ⊢
    omega
  simp only [splitAndInsertLeaf, hbig, ↓reduceIte, bind, Except.bind] at hx
  split at hx
  · cases hx
  · split at hx
    · cases hx
    · cases hx

end Btrfs
