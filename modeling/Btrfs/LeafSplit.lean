/-
  Btrfs/LeafSplit.lean
  ====================
  **Where `splitAndInsertLeaf` cuts.**

  The cut is taken where the payload bytes to its left first reach half of all payload
  bytes.  Descriptors are not counted, and the scan leaves out the last record: where
  that one alone has more than half of the bytes, no cut is found and the first record is
  cut off.  A leaf is split exactly when the two parts at this one cut fit, whether or not
  they would at another.
-/
import Btrfs.Items
import Btrfs.LeafSpec

namespace Btrfs

open Lib

variable {ns : Nat} {all : List (Key × Bytes)} {items : List LeafItem} {k : Key} {data : Bytes}

/-! ## 1. The cut -/

/-- The data bytes of some records. -/
def payload (recs : List (Key × Bytes)) : Nat := (recs.map fun r => r.2.length).sum

theorem payload_set {recs : List (Key × Bytes)} {idx : Nat} {old : Key × Bytes}
    (h : recs[idx]? = some old) (new : Key × Bytes) :
    payload (recs.set idx new) + old.2.length = payload recs + new.2.length := by
  induction recs generalizing idx with
  | nil => simp at h
  | cons r recs ih =>
    cases idx with
    | zero =>
      simp only [List.getElem?_cons_zero, Option.some.injEq] at h
      subst h
      simp only [payload, List.set_cons_zero, List.map_cons, List.sum_cons]
      omega
    | succ idx =>
      simp only [List.getElem?_cons_succ] at h
      have hrest := ih h
      simp only [payload, List.set_cons_succ, List.map_cons, List.sum_cons] at hrest ⊢
      omega

theorem payload_insertIdx {recs : List (Key × Bytes)} {idx : Nat} (r : Key × Bytes) (h : idx ≤ recs.length) :
    payload (recs.insertIdx idx r) = r.2.length + payload recs := by
  have hperm := (List.perm_insertIdx r recs h).map fun r : Key × Bytes => r.2.length
  rw [payload, hperm.sum_eq]
  rfl

/-- The cut by bytes: the first at which half of the payload is reached, or the first of all if none
    reaches it. -/
structure HalfCut (all : List (Key × Bytes)) (c : Nat) : Prop where
  pos : 1 ≤ c
  inside : c < all.length
  first : ∀ c', 1 ≤ c' → c' < c → payload (all.take c') < payload all / 2
  reached : payload all / 2 ≤ payload (all.take c) ∨
    c = 1 ∧ ∀ c', 1 ≤ c' → c' < all.length → payload (all.take c') < payload all / 2

theorem HalfCut.unique {c d : Nat} (hc : HalfCut all c) (hd : HalfCut all d) : c = d := by
  have hle : ∀ {c d : Nat}, HalfCut all c → HalfCut all d → c ≤ d := by
    intro c d hc hd
    by_contra hlt
    rcases hd.reached with hreach | ⟨-, hnone⟩
    · exact absurd (hc.first d hd.pos (by omega)) (by omega)
    · rcases hc.reached with hreach | ⟨rfl, -⟩
      · exact absurd (hnone c hc.pos hc.inside) (by omega)
      · exact hlt hd.pos
  exact le_antisymm (hle hc hd) (hle hd hc)

/-- The scan stops at the first prefix with the target, or runs through and answers 1. -/
theorem scanSplit_spec (target : Nat) (recs : List (Key × Bytes)) : ∀ cum i : Nat,
    (∃ j < recs.length, scanSplit target cum i recs = i + j + 1 ∧
      target ≤ cum + payload (recs.take (j + 1)) ∧
      ∀ j' < j, cum + payload (recs.take (j' + 1)) < target) ∨
    (scanSplit target cum i recs = 1 ∧
      ∀ j < recs.length, cum + payload (recs.take (j + 1)) < target) := by
  induction recs with
  | nil =>
    intro cum i
    exact Or.inr ⟨rfl, fun j hj => absurd hj (Nat.not_lt_zero j)⟩
  | cons r recs ih =>
    intro cum i
    have hhead : payload ((r :: recs).take (0 + 1)) = r.2.length := by simp [payload]
    have htail : ∀ j, cum + payload ((r :: recs).take (j + 1 + 1)) =
        cum + r.2.length + payload (recs.take (j + 1)) := by
      intro j
      rw [List.take_succ_cons, payload, payload, List.map_cons, List.sum_cons, Nat.add_assoc]
    rw [scanSplit]
    split_ifs with hstop
    · refine Or.inl ⟨0, by simp, rfl, by rw [hhead]; exact hstop, ?_⟩
      exact fun j' hj' => absurd hj' (Nat.not_lt_zero j')
    rcases ih (cum + r.2.length) (i + 1) with ⟨j, hj, heq, hreach, hbefore⟩ | ⟨heq, hnone⟩
    · refine Or.inl ⟨j + 1, by simpa using hj, by rw [heq]; omega, by rw [htail]; exact hreach, ?_⟩
      intro j' hj'
      cases j' with
      | zero => rw [hhead]; omega
      | succ j' =>
        rw [htail]
        exact hbefore j' (by omega)
    · refine Or.inr ⟨heq, fun j hj => ?_⟩
      cases j with
      | zero => rw [hhead]; omega
      | succ j =>
        rw [htail]
        exact hnone j (by simpa using hj)

/-- `splitAndInsertLeaf` cuts by bytes. -/
theorem halfCut_splitPoint (h : 2 ≤ all.length) : HalfCut all (splitPoint all) := by
  have hlen : all.dropLast.length = all.length - 1 := List.length_dropLast
  have htake : ∀ j, j < all.length - 1 → all.dropLast.take (j + 1) = all.take (j + 1) := by
    intro j hj
    rw [List.dropLast_eq_take, List.take_take]
    congr 1
    omega
  have hbefore : ∀ {n}, (∀ j < n, 0 + payload (all.dropLast.take (j + 1)) < payload all / 2) →
      n ≤ all.length - 1 → ∀ c', 1 ≤ c' → c' < n + 1 → payload (all.take c') < payload all / 2 := by
    intro n hall hn c' hpos hc'
    obtain ⟨j, rfl⟩ : ∃ j, c' = j + 1 := ⟨c' - 1, by omega⟩
    have hj := hall j (by omega)
    rwa [htake j (by omega), Nat.zero_add] at hj
  have hpoint : splitPoint all =
      if all.length - 1 < max 1 (scanSplit (payload all / 2) 0 0 all.dropLast) then all.length - 1
      else max 1 (scanSplit (payload all / 2) 0 0 all.dropLast) := rfl
  rcases scanSplit_spec (payload all / 2) all.dropLast 0 0 with
    ⟨j, hj, heq, hreach, hfirst⟩ | ⟨heq, hnone⟩
  · obtain hpoint : splitPoint all = j + 1 := by
      rw [hpoint, heq, if_neg (by omega)]
      omega
    rw [hpoint]
    refine ⟨by omega, by omega, hbefore hfirst (by omega), Or.inl ?_⟩
    rwa [htake j (by omega), Nat.zero_add] at hreach
  · obtain hpoint : splitPoint all = 1 := by
      rw [hpoint, heq, if_neg (by omega)]
      rfl
    rw [hpoint]
    refine ⟨le_rfl, by omega, fun c' _ _ => by omega, Or.inr ⟨rfl, ?_⟩⟩
    intro c' hpos hc'
    exact hbefore hnone (by omega) c' hpos (by omega)

/-! ## 2. The split -/

/-- Header, descriptors and data of the records fit in a node. -/
def LeafFits (ns : Nat) (recs : List (Key × Bytes)) : Prop := nodeHdrSize + packedSize recs ≤ ns

instance (ns : Nat) (recs : List (Key × Bytes)) : Decidable (LeafFits ns recs) :=
  inferInstanceAs (Decidable (_ ≤ _))

/-- The keys of the leaf increase, and it fits in its node. -/
structure WellFormedLeaf (ns : Nat) (items : List LeafItem) : Prop where
  sorted : items.Pairwise fun a b => a.k < b.k
  fits : LeafFits ns (items.map LeafItem.kv)

/-- The records of a leaf with one more at its place. -/
def mergedItems (items : List LeafItem) (k : Key) (data : Bytes) : List (Key × Bytes) :=
  (items.map LeafItem.kv).orderedInsert keyLE (k, data)

/-- The split succeeds with two leaves that are not empty and hold the merged list, and with the
    first key of the right one. -/
def SplitDone (ns : Nat) (items : List LeafItem) (k : Key) (data : Bytes) : Prop :=
  ∃ left right splitKey, splitAndInsertLeaf ns items k data = .ok (left, right, splitKey) ∧
    (left ++ right).map LeafItem.kv = mergedItems items k data ∧ left ≠ [] ∧ right ≠ [] ∧
    right.head?.map LeafItem.k = some splitKey

/-- A split is possible: the merged list can be cut into two that fit. -/
def CanSplit (ns : Nat) (items : List LeafItem) (k : Key) (data : Bytes) : Prop :=
  ∃ c ≤ (mergedItems items k data).length, LeafFits ns ((mergedItems items k data).take c) ∧
    LeafFits ns ((mergedItems items k data).drop c)

/-- The two parts at the cut by bytes fit. -/
def HalvesFit (ns : Nat) (all : List (Key × Bytes)) : Prop :=
  ∃ c, HalfCut all c ∧ LeafFits ns (all.take c) ∧ LeafFits ns (all.drop c)

theorem length_mergedItems (items : List LeafItem) (k : Key) (data : Bytes) :
    (mergedItems items k data).length = items.length + 1 := by
  rw [mergedItems, List.orderedInsert_length, List.length_map]

theorem mem_mergedItems (items : List LeafItem) (k : Key) (data : Bytes) :
    (k, data) ∈ mergedItems items k data :=
  (List.mem_orderedInsert keyLE).mpr (Or.inl rfl)

theorem insertIdx_mergedItems (habs : ∀ it ∈ items, it.k ≠ k) :
    (items.map LeafItem.kv).insertIdx (insertPos (items.map LeafItem.kv) k) (k, data) =
      mergedItems items k data := by
  refine insertIdx_insertPos data _ fun q hq => ?_
  obtain ⟨it, hit, rfl⟩ := List.mem_map.mp hq
  exact habs it hit

/-- A leaf that is built fits, and the other way round. -/
theorem buildLeafFromItems_isOk {recs : List (Key × Bytes)} (hne : recs ≠ []) :
    (∃ l, buildLeafFromItems ns recs = .ok l) ↔ LeafFits ns recs := by
  constructor
  · rintro ⟨l, hl⟩
    have hfit := ((buildLeafFrom_eq recs 0 ns le_rfl).2 l hl).2 hne
    rw [LeafFits]
    omega
  · exact fun hfit => ⟨_, buildLeafFromItems_fits hfit⟩

theorem LeafFits.mem {recs : List (Key × Bytes)} (h : LeafFits ns recs) {r : Key × Bytes}
    (hr : r ∈ recs) : nodeHdrSize + itemSize + r.2.length ≤ ns := by
  have hsum : r.2.length ≤ payload recs := 
    List.single_le_sum (fun _ _ => Nat.zero_le _) _ (List.mem_map_of_mem hr)
  have hpos : 1 ≤ recs.length := List.length_pos_of_mem hr
  have hdesc : 1 * itemSize ≤ recs.length * itemSize := Nat.mul_le_mul_right _ hpos
  rw [LeafFits, packedSize, ← payload] at h
  omega

/-- If both parts fit, the split succeeds. -/
theorem splitAndInsertLeaf_of_fits (habs : ∀ it ∈ items, it.k ≠ k)
    (hleft : LeafFits ns ((mergedItems items k data).take (splitPoint (mergedItems items k data))))
    (hright : LeafFits ns ((mergedItems items k data).drop (splitPoint (mergedItems items k data)))) :
    ∃ x, splitAndInsertLeaf ns items k data = .ok x := by
  have hmem := mem_mergedItems items k data
  rw [← List.take_append_drop (splitPoint (mergedItems items k data)) (mergedItems items k data),
    List.mem_append] at hmem
  -- the new record lies in one of the parts, so that the check for a record too large passes
  have hroom : nodeHdrSize + itemSize + data.length ≤ ns := hmem.elim hleft.mem hright.mem
  simp only [splitAndInsertLeaf, insertIdx_mergedItems habs,
    buildLeafFromItems_fits hleft, buildLeafFromItems_fits hright, bind, Except.bind]
  rw [if_neg (by omega)]
  exact ⟨_, rfl⟩

/-- If the split succeeds on a leaf with items, both parts fit. -/
theorem fits_of_splitAndInsertLeaf {l r : List LeafItem} {s : Key} (hne : items ≠ [])
    (habs : ∀ it ∈ items, it.k ≠ k) (h : splitAndInsertLeaf ns items k data = .ok (l, r, s)) :
    HalvesFit ns (mergedItems items k data) := by
  obtain ⟨hl, hr, -⟩ := splitAndInsertLeaf_inv (insertIdx_mergedItems habs) h
  have hlen := length_mergedItems items k data
  have hpos := List.length_pos_of_ne_nil hne
  have hcut := halfCut_splitPoint (show 2 ≤ (mergedItems items k data).length by omega)
  generalize mergedItems items k data = all at hl hr hlen hcut ⊢
  have hinside := hcut.inside
  have hcutpos := hcut.pos
  have hleft : all.take (splitPoint all) ≠ [] :=
    List.ne_nil_of_length_pos (by rw [List.length_take]; omega)
  have hright : all.drop (splitPoint all) ≠ [] :=
    List.ne_nil_of_length_pos (by rw [List.length_drop]; omega)
  exact ⟨_, hcut, (buildLeafFromItems_isOk hleft).mp ⟨l, hl⟩, (buildLeafFromItems_isOk hright).mp ⟨r, hr⟩⟩

/-- **Splitting a leaf.**  A well-formed leaf is split whenever it can be, exactly when the two parts
    fit at the cut by bytes whenever there is some cut at which they do. -/
theorem splitAndInsertLeaf_done_iff (hleaf : WellFormedLeaf ns items) (habs : ∀ it ∈ items, it.k ≠ k) :
    (CanSplit ns items k data → SplitDone ns items k data) ↔
      (CanSplit ns items k data → HalvesFit ns (mergedItems items k data)) := by
  have hiff : SplitDone ns items k data ↔ HalvesFit ns (mergedItems items k data) := by
    constructor
    · rintro ⟨left, right, splitKey, hrun, hall, hleft, hright, -⟩
      refine fits_of_splitAndInsertLeaf ?_ habs hrun
      -- one record cannot fill two leaves
      rintro rfl
      have hlen := congrArg List.length hall
      rw [length_mergedItems, List.length_map, List.length_append] at hlen
      have hl := List.length_pos_of_ne_nil hleft
      have hr := List.length_pos_of_ne_nil hright
      simp only [List.length_nil] at hlen
      omega
    · rintro ⟨c, hcut, hleft, hright⟩
      have hlen := length_mergedItems items k data
      have hinside := hcut.inside
      have hpos := hcut.pos
      have hne : items ≠ [] := by
        rintro rfl
        simp only [List.length_nil] at hlen
        omega
      obtain rfl := hcut.unique (halfCut_splitPoint (by omega))
      obtain ⟨⟨left, right, splitKey⟩, hrun⟩ := splitAndInsertLeaf_of_fits habs hleft hright
      obtain ⟨hl, it, hit, hkey⟩ := splitAndInsertLeaf_parts hne hrun
      rw [Option.mem_def] at hit
      refine ⟨left, right, splitKey, hrun, splitAndInsertLeaf_ok habs hrun, hl, ?_,
        by rw [hit, Option.map_some, hkey]⟩
      rintro rfl
      cases hit
  rw [hiff]

/-- Two items in a node of 168 bytes, and a third between them. -/
theorem splitAndInsertLeaf_done_three :
    SplitDone 168 [⟨⟨1, 1, 0⟩, 67, []⟩, ⟨⟨3, 1, 0⟩, 67, []⟩] ⟨2, 1, 0⟩ [] := by
  have hleaf : WellFormedLeaf 168 [⟨⟨1, 1, 0⟩, 67, []⟩, ⟨⟨3, 1, 0⟩, 67, []⟩] :=
    ⟨by decide, by decide⟩
  refine (splitAndInsertLeaf_done_iff hleaf (by decide)).mpr (fun _ => ?_) ⟨1, by decide⟩
  exact ⟨_, halfCut_splitPoint (by decide), by decide⟩

/-- Two items of a node of 4096 bytes. -/
def unevenItems : List LeafItem :=
  [⟨⟨257, typeInodeRef, 256⟩, 3985, List.replicate 10 0⟩,
    ⟨⟨257, typeExtentData, 0⟩, 2015, List.replicate 1970 0⟩]

set_option maxRecDepth 100000 in
/-- A third, of 2000 bytes, can go into a leaf of its own.  It has more than half of the payload, and
    the cut is made before the second. -/
theorem splitAndInsertLeaf_uneven : WellFormedLeaf 4096 unevenItems ∧
    (∀ it ∈ unevenItems, it.k ≠ ⟨258, typeExtentData, 0⟩) ∧
    CanSplit 4096 unevenItems ⟨258, typeExtentData, 0⟩ (List.replicate 2000 0) ∧
    (splitAndInsertLeaf 4096 unevenItems ⟨258, typeExtentData, 0⟩ (List.replicate 2000 0)).toOption =
      none ∧
    ¬ SplitDone 4096 unevenItems ⟨258, typeExtentData, 0⟩ (List.replicate 2000 0) := by
  have hfails : (splitAndInsertLeaf 4096 unevenItems ⟨258, typeExtentData, 0⟩
      (List.replicate 2000 0)).toOption = none := by decide +kernel
  refine ⟨⟨by decide, by decide +kernel⟩, by decide, ⟨2, by decide +kernel⟩, hfails, ?_⟩
  rintro ⟨left, right, splitKey, hrun, -⟩
  rw [hrun] at hfails
  cases hfails

end Btrfs
