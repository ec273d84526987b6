/-
  Btrfs/LeafPacking.lean
  ======================
  **What the leaf primitives keep of a leaf's layout.**

  On every buffer whose data ranges lie behind the descriptors and share no byte, the
  primitives are the list operations on the records the readers see, and leave such a
  buffer (`leafPrimitives_refine`).

  The kernel asks for more: the data of item `i` must end where the data of item `i - 1`
  begins.  Insertion and replacement repack.  Deletion re-bases the offsets below that of
  the deleted item, and an empty item right behind the deleted one has the same offset; it
  is left where it was.  So a deletion keeps a leaf packed exactly if it frees nothing, is
  at the end, or the next item has data (`packing_kept`).
-/
import Btrfs.LeafBytes

namespace Btrfs.Raw

open Lib

variable {b b' : Bytes} {l : List LeafItem} {idx : Nat}

/-! ## 1. Layouts -/

/-- The bytes of the data of item `i`. -/
def dataRange (b : Bytes) (i : Nat) : Span := ⟨(itemDesc b i).dataOff, (itemDesc b i).dataSize⟩

/-- The descriptors fit in the node, and the data lies behind them in the node and shares no
    byte. -/
structure Layout (b : Bytes) : Prop where
  size : b.length < 2 ^ 32
  fits : descOff (nItems b) ≤ b.length
  inside : ∀ i < nItems b, descOff (nItems b) ≤ nodeHdrSize + (dataRange b i).start ∧
    nodeHdrSize + (dataRange b i).stop ≤ b.length
  apart : ∀ i < nItems b, ∀ j < nItems b, i ≠ j →
    Disjoint (dataRange b i).bytes (dataRange b j).bytes

/-- The keys increase. -/
def KeysIncrease (b : Bytes) : Prop :=
  ∀ i j, i < j → j < nItems b → (itemDesc b i).k < (itemDesc b j).k

/-- The item at `i`. -/
def itemAt (b : Bytes) (i : Nat) : LeafItem :=
  ⟨(itemDesc b i).k, (itemDesc b i).dataOff,
    (b.drop (nodeHdrSize + (itemDesc b i).dataOff)).take (itemDesc b i).dataSize⟩

theorem LeafOf.dataRange {it : LeafItem} {i : Nat} (h : LeafOf b l) (hi : l[i]? = some it) :
    dataRange b i = dataSpan it := by
  rw [Raw.dataRange, (h.stores hi).desc]
  rfl

theorem LeafOf.layout (h : LeafOf b l) : Layout b := by
  have hget : ∀ i < nItems b, ∃ it, l[i]? = some it := by
    intro i hi
    rw [h.count] at hi
    exact ⟨_, List.getElem?_eq_getElem hi⟩
  refine ⟨h.size, h.count.symm ▸ h.fits, fun i hi => ?_, fun i hi j hj hne => ?_⟩
  · obtain ⟨it, hit⟩ := hget i hi
    obtain ⟨hlo, hhi⟩ := h.data.inside it (List.mem_of_getElem? hit)
    rw [h.dataRange hit, h.count, descOff]
    simp only [dataSpan, Span.stop]
    omega
  · obtain ⟨it, hit⟩ := hget i hi
    obtain ⟨jt, hjt⟩ := hget j hj
    rw [h.dataRange hit, h.dataRange hjt]
    exact h.data.disjoint hit hjt hne

theorem Layout.leafOf (h : Layout b) : LeafOf b ((List.range (nItems b)).map (itemAt b)) := by
  have hlen : ((List.range (nItems b)).map (itemAt b)).length = nItems b := by simp
  have hdata : ∀ i < nItems b, (itemAt b i).data.length = (itemDesc b i).dataSize := by
    intro i hi
    have := (h.inside i hi).2
    simp only [Raw.dataRange, Span.stop] at this
    simp only [itemAt, List.length_take, List.length_drop]
    omega
  have hspan : ∀ i < nItems b, dataSpan (itemAt b i) = dataRange b i := by
    intro i hi
    rw [dataSpan, hdata i hi]
    rfl
  refine ⟨⟨h.size, hlen.symm, hlen.symm ▸ h.fits, ?_⟩, ?_, ?_⟩
  · intro i it hit
    rw [List.getElem?_map, Option.map_eq_some_iff] at hit
    obtain ⟨j, hj, rfl⟩ := hit
    obtain ⟨hj', rfl⟩ := List.getElem?_eq_some_iff.mp hj
    rw [List.length_range] at hj'
    rw [List.getElem_range]
    refine ⟨by rw [hdata i hj']; rfl, by rw [hdata i hj']; rfl, ?_⟩
    have := (h.inside i hj').2
    rw [hdata i hj']
    simp only [Raw.dataRange, Span.stop] at this
    simp only [itemAt]
    omega
  · intro it hit
    obtain ⟨i, hi, rfl⟩ := List.mem_map.mp hit
    have hi' := List.mem_range.mp hi
    obtain ⟨hlo, hhi⟩ := h.inside i hi'
    rw [hlen, hdata i hi']
    rw [descOff] at hlo
    simp only [Raw.dataRange, Span.stop] at hlo hhi
    simp only [itemAt]
    omega
  · rw [Scattered, List.map_map, List.pairwise_map, List.pairwise_iff_getElem]
    intro i j hi hj hlt
    rw [List.length_range] at hi hj
    simp only [List.getElem_range, Function.comp, hspan i hi, hspan j hj]
    exact h.apart i hi j hj hlt.ne

theorem LeafOf.keysIncrease_iff (h : LeafOf b l) :
    KeysIncrease b ↔ l.Pairwise fun x y => x.k < y.k := by
  have hkey : ∀ i (hi : i < l.length), (itemDesc b i).k = l[i].k := fun i hi =>
    congrArg ItemDesc.k (h.stores (List.getElem?_eq_getElem hi)).desc
  rw [KeysIncrease, List.pairwise_iff_getElem, h.count]
  constructor
  · intro hkeys i j hi hj hlt
    rw [← hkey i hi, ← hkey j hj]
    exact hkeys i j hlt hj
  · intro hkeys i j hlt hj
    rw [hkey i (hlt.trans hj), hkey j hj]
    exact hkeys i j (hlt.trans hj) hj hlt

theorem keysIncrease_of_records {recs : List (Key × Bytes)} (h : LeafOf b l)
    (hrecs : l.map LeafItem.kv = recs) (hs : recs.Pairwise fun x y => x.1 < y.1) : KeysIncrease b := by
  subst hrecs
  exact h.keysIncrease_iff.mpr ((List.pairwise_map (f := LeafItem.kv)).mp hs)

/-! ## 2. The primitives on records -/

theorem Agrees.ok {ns : Nat} {r : Except Err (List LeafItem)} (h : Agrees ns (.ok b') r) :
    ∃ l', r = .ok l' ∧ b'.length = ns ∧ LeafOf b' l' := by
  cases r with
  | ok l' => exact ⟨l', rfl, h⟩
  | error e => exact h.elim

theorem Agrees.inBounds {ns : Nat} {x : Go Bytes} {r : Except Err (List LeafItem)} (h : Agrees ns x r) :
    InBounds x := by
  rintro rfl
  cases r with
  | ok l' => exact h
  | error e => exact h

theorem pairwise_orderedInsert {recs : List (Key × Bytes)} {k : Key} {data : Bytes}
    (hs : recs.Pairwise fun x y => x.1 < y.1) (hk : k ∉ recs.map Prod.fst) :
    (recs.orderedInsert keyLE (k, data)).Pairwise fun x y => x.1 < y.1 := by
  induction recs with
  | nil => exact List.pairwise_singleton _ _
  | cons r recs ih =>
    obtain ⟨hr, hs⟩ := List.pairwise_cons.mp hs
    rw [List.map_cons, List.mem_cons, not_or] at hk
    rw [List.orderedInsert_cons]
    split_ifs with hle
    · have hlt : k < r.1 := lt_of_le_of_ne hle hk.1
      refine List.pairwise_cons.mpr ⟨?_, List.pairwise_cons.mpr ⟨hr, hs⟩⟩
      rintro q hq
      rcases List.mem_cons.mp hq with rfl | hq
      · exact hlt
      · exact hlt.trans (hr q hq)
    · refine List.pairwise_cons.mpr ⟨fun q hq => ?_, ih hs hk.2⟩
      rcases (List.mem_orderedInsert keyLE).mp hq with rfl | hq
      · exact lt_of_not_ge hle
      · exact hr q hq

/-- On every buffer with this layout the primitives edit the list of records the readers see, never
    index out of range, and leave such a buffer. -/
theorem leafPrimitives_refine (h : Layout b) (hs : KeysIncrease b) :
    ∃ recs, leafRecords b = .ok recs ∧
      (∀ k data, FitsDisk k → InBounds (leafInsertItem b k data) ∧
        ∀ b', k ∉ recs.map Prod.fst → leafInsertItem b k data = .ok b' →
          leafRecords b' = .ok (recs.orderedInsert keyLE (k, data)) ∧ Layout b' ∧ KeysIncrease b') ∧
      (∀ idx r data, recs[idx]? = some r → InBounds (leafReplaceItemData b idx data) ∧
        ∀ b', leafReplaceItemData b idx data = .ok b' →
          leafRecords b' = .ok (recs.set idx (r.1, data)) ∧ Layout b' ∧ KeysIncrease b') ∧
      ∀ idx < recs.length, ∃ b', leafDeleteItem b idx = .ok b' ∧
        leafRecords b' = .ok (recs.eraseIdx idx) ∧ Layout b' ∧ KeysIncrease b' := by
  have hl := h.leafOf
  generalize (List.range (nItems b)).map (itemAt b) = l at hl
  have hsorted : (l.map LeafItem.kv).Pairwise fun x y => x.1 < y.1 :=
    List.pairwise_map.mpr (hl.keysIncrease_iff.mp hs)
  refine ⟨l.map LeafItem.kv, hl.leafRecords, ?_, ?_, ?_⟩
  · intro k data hk
    have hsim := leafInsertItem_sim hl hk data
    refine ⟨hsim.inBounds, fun b' hnew hrun => ?_⟩
    rw [hrun] at hsim
    obtain ⟨l', hrun', -, hleaf⟩ := hsim.ok
    have habs : ∀ it ∈ l, it.k ≠ k := by
      rintro it hit rfl
      exact hnew (List.mem_map.mpr ⟨it.kv, List.mem_map_of_mem hit, rfl⟩)
    have hkv := leafInsertItem_ok habs hrun'
    exact ⟨hkv ▸ hleaf.leafRecords, hleaf.layout,
      keysIncrease_of_records hleaf hkv (pairwise_orderedInsert hsorted hnew)⟩
  · intro idx r data hr
    rw [List.getElem?_map, Option.map_eq_some_iff] at hr
    obtain ⟨it, hit, rfl⟩ := hr
    have hsim := leafReplaceItemData_sim hl (List.getElem?_eq_some_iff.mp hit).1 data
    refine ⟨hsim.inBounds, fun b' hrun => ?_⟩
    rw [hrun] at hsim
    obtain ⟨l', hrun', -, hleaf⟩ := hsim.ok
    have hkv := leafReplaceItemData_ok hit hrun'
    refine ⟨hkv ▸ hleaf.leafRecords, hleaf.layout, keysIncrease_of_records hleaf hkv ?_⟩
    have hkeys : ((l.map LeafItem.kv).set idx (it.k, data)).map Prod.fst = (l.map LeafItem.kv).map Prod.fst := by
      have hget : ((l.map LeafItem.kv).map Prod.fst)[idx]? = some it.k := by
        rw [List.getElem?_map, List.getElem?_map, hit]
        rfl
      obtain ⟨hlt, heq⟩ := List.getElem?_eq_some_iff.mp hget
      rw [List.map_set]
      dsimp only
      rw [← heq, List.set_getElem_self]
    have hpw := List.pairwise_map.mpr hsorted
    rw [← hkeys] at hpw
    exact List.pairwise_map.mp hpw
  · intro idx hidx
    rw [List.length_map] at hidx
    obtain ⟨b', hrun, -, hleaf⟩ := leafDeleteItem_sim hl hidx
    have hkv : (Btrfs.leafDeleteItem l idx).map LeafItem.kv = (l.map LeafItem.kv).eraseIdx idx :=
      map_kv_leafDeleteItem idx
    refine ⟨b', hrun, hkv ▸ hleaf.leafRecords, hleaf.layout, keysIncrease_of_records hleaf hkv ?_⟩
    exact hsorted.sublist (List.eraseIdx_sublist _ _)

/-- A leaf of 200 bytes with two items; the first one's data lies below the other's, with gaps. -/
def scatteredLeaf : Bytes :=
  List.replicate 0x60 0 ++ (leBytes 4 2 ++ ([0] ++ (encodeDesc ⟨256, 1, 0⟩ 60 3 ++
    (encodeDesc ⟨257, 1, 0⟩ 80 2 ++ (List.replicate 10 0 ++ ([1, 2, 3] ++ (List.replicate 17 0 ++
      ([4, 5] ++ List.replicate 17 0))))))))

theorem leafPrimitives_refine_scattered :
    Layout scatteredLeaf ∧ leafRecords scatteredLeaf = .ok [(⟨256, 1, 0⟩, [1, 2, 3]), (⟨257, 1, 0⟩, [4, 5])] ∧
    ∃ b', leafDeleteItem scatteredLeaf 1 = .ok b' ∧ leafRecords b' = .ok [(⟨256, 1, 0⟩, [1, 2, 3])] ∧
      Layout b' := by
  have hfacts : scatteredLeaf.length = 200 ∧ nItems scatteredLeaf = 2 ∧
      (∀ i < 2, descOff 2 ≤ nodeHdrSize + (dataRange scatteredLeaf i).start ∧
        nodeHdrSize + (dataRange scatteredLeaf i).stop ≤ 200) ∧
      (∀ i < 2, ∀ j < 2, i ≠ j → (dataRange scatteredLeaf i).stop ≤ (dataRange scatteredLeaf j).start ∨
        (dataRange scatteredLeaf j).stop ≤ (dataRange scatteredLeaf i).start) ∧
      (itemDesc scatteredLeaf 0).k = ⟨256, 1, 0⟩ ∧ (itemDesc scatteredLeaf 1).k = ⟨257, 1, 0⟩ ∧
      leafRecords scatteredLeaf = .ok [(⟨256, 1, 0⟩, [1, 2, 3]), (⟨257, 1, 0⟩, [4, 5])] := by
    decide +kernel
  generalize scatteredLeaf = b at *
  obtain ⟨hlen, hn, hin, hapart, hk0, hk1, hrecs⟩ := hfacts
  have hlay : Layout b := by
    refine ⟨by rw [hlen]; decide, by rw [hn, hlen]; decide, ?_, ?_⟩
    · rw [hn, hlen]
      exact hin
    · rw [hn]
      exact fun i hi j hj hne => Span.disjoint_of_le (hapart i hi j hj hne)
  have hkeys : KeysIncrease b := by
    intro i j hlt hj
    rw [hn] at hj
    obtain rfl : i = 0 := by omega
    obtain rfl : j = 1 := by omega
    rw [hk0, hk1]
    decide
  obtain ⟨recs, hrecs', -, -, hdel⟩ := leafPrimitives_refine hlay hkeys
  rw [hrecs, Except.ok.injEq] at hrecs'
  subst hrecs'
  obtain ⟨b', hrun, hrest, hlay', -⟩ := hdel 1 (by decide)
  exact ⟨hlay, hrecs, b', hrun, hrest, hlay'⟩

/-! ## 3. Packed leaves -/

/-- The data of each item ends where that of the one before begins; the first ends at `stop`. -/
def PackedFrom (stop : Nat) : List LeafItem → Prop
  | [] => True
  | it :: l => it.dataOff + it.data.length = stop ∧ PackedFrom it.dataOff l

/-- Where the data of the last item begins. -/
def lastOff (stop : Nat) : List LeafItem → Nat
  | [] => stop
  | it :: l => lastOff it.dataOff l

theorem packedFrom_append {m : List LeafItem} : ∀ {l : List LeafItem} {stop : Nat},
    PackedFrom stop (l ++ m) ↔ PackedFrom stop l ∧ PackedFrom (lastOff stop l) m := by
  intro l
  induction l with
  | nil => exact fun {_} => (iff_of_eq (true_and _)).symm
  | cons it l ih =>
    intro stop
    rw [List.cons_append, PackedFrom, PackedFrom, ih, lastOff, and_assoc]

theorem PackedFrom.lastOff_le : ∀ {l : List LeafItem} {stop : Nat}, PackedFrom stop l →
    lastOff stop l ≤ stop ∧ ∀ it ∈ l, lastOff stop l ≤ it.dataOff ∧ it.dataOff ≤ stop := by
  intro l
  induction l with
  | nil => exact fun {_} _ => ⟨le_rfl, nofun⟩
  | cons it l ih =>
    intro stop h
    obtain ⟨hle, hall⟩ := ih h.2
    have hstop := h.1
    rw [lastOff]
    refine ⟨by omega, List.forall_mem_cons.mpr ⟨⟨hle, by omega⟩, fun x hx => ?_⟩⟩
    have := hall x hx
    omega

theorem packedFrom_packFrom (recs : List (Key × Bytes)) : ∀ cursor, nodeHdrSize + payload recs ≤ cursor →
    PackedFrom (cursor - nodeHdrSize) (packFrom cursor recs) := by
  induction recs with
  | nil => exact fun _ _ => trivial
  | cons r recs ih =>
    intro cursor h
    obtain ⟨k, d⟩ := r
    have hpay : payload ((k, d) :: recs) = d.length + payload recs := rfl
    refine ⟨?_, ih _ (by omega)⟩
    dsimp only
    omega

/-- The data area of a packed leaf begins with the last item. -/
theorem dataAreaEnd_of_packed : ∀ (l : List LeafItem) {acc : Nat}, nodeHdrSize ≤ acc →
    PackedFrom (acc - nodeHdrSize) l → Btrfs.dataAreaEnd acc l + payload (l.map LeafItem.kv) = acc := by
  intro l
  induction l with
  | nil => exact fun _ _ => rfl
  | cons it l ih =>
    intro acc hacc h
    have hpay : payload ((it :: l).map LeafItem.kv) = it.data.length + payload (l.map LeafItem.kv) := rfl
    have hstop := h.1
    have hrest : Btrfs.dataAreaEnd (nodeHdrSize + it.dataOff) l + payload (l.map LeafItem.kv) =
        nodeHdrSize + it.dataOff :=
      ih (Nat.le_add_right _ _) (by rw [Nat.add_sub_cancel_left]; exact h.2)
    have hstep : Btrfs.dataAreaEnd acc (it :: l) = Btrfs.dataAreaEnd (nodeHdrSize + it.dataOff) l := by
      rw [Btrfs.dataAreaEnd, Btrfs.dataAreaEnd, List.foldl_cons]
      congr 1
      split_ifs <;> omega
    omega

/-- All the data moves up. -/
theorem packedFrom_shift {del : LeafItem} : ∀ {l : List LeafItem} {stop : Nat}, PackedFrom stop l →
    (∀ it ∈ l, it.dataOff < del.dataOff) →
    PackedFrom (stop + del.data.length) (l.map (shiftItem del)) := by
  intro l
  induction l with
  | nil => exact fun _ _ => trivial
  | cons it l ih =>
    intro stop h hall
    obtain ⟨hit, hall⟩ := List.forall_mem_cons.mp hall
    have hstop := h.1
    rw [List.map_cons, PackedFrom, shiftItem_data, shiftItem_dataOff, if_pos hit]
    exact ⟨by omega, ih h.2 hall⟩

/-- A leaf with an item taken out of the middle, in the list model. -/
theorem packedFrom_delete_iff {stop : Nat} {before after : List LeafItem} {del : LeafItem}
    (h : PackedFrom stop (before ++ del :: after)) :
    PackedFrom stop ((before ++ after).map (shiftItem del)) ↔
      del.data.length = 0 ∨ ∀ it ∈ after.head?, 0 < it.data.length := by
  obtain ⟨hbefore, hdel, hafter⟩ := packedFrom_append.mp h
  -- nothing before the deleted item moves
  have hkeep : before.map (shiftItem del) = before := by
    refine List.map_congr_left (fun it hit => ?_) |>.trans (List.map_id _)
    have := (hbefore.lastOff_le.2 it hit).1
    rw [shiftItem, if_neg (by omega)]
    rfl
  rw [List.map_append, hkeep, packedFrom_append, ← hdel]
  constructor
  · rintro ⟨-, hpacked⟩
    by_contra hcon
    push Not at hcon
    obtain ⟨hpos, it, hit, hempty⟩ := hcon
    cases after with
    | nil => cases hit
    | cons a after =>
      obtain rfl : a = it := by simpa using hit
      have hoff := hafter.1
      have hstop := hpacked.1
      rw [shiftItem_data, shiftItem_dataOff, if_neg (by omega)] at hstop
      omega
  · intro hcond
    refine ⟨hbefore, ?_⟩
    -- either nothing moves by any amount, or everything behind moves up
    rcases Nat.eq_zero_or_pos del.data.length with hzero | hpos
    · have hsame : after.map (shiftItem del) = after := by
        refine List.map_congr_left (fun it _ => ?_) |>.trans (List.map_id _)
        rw [shiftItem, hzero]
        split_ifs <;> rfl
      rw [hsame, hzero]
      exact hafter
    · have hhead := hcond.resolve_left (by omega)
      have hbelow : ∀ it ∈ after, it.dataOff < del.dataOff := by
        intro it hit
        cases after with
        | nil => cases hit
        | cons a after =>
          have hapos := hhead a rfl
          have hstop := hafter.1
          rcases List.mem_cons.mp hit with rfl | hit
          · omega
          · have := (hafter.2.lastOff_le.2 it hit).2
            omega
      exact packedFrom_shift hafter hbelow

/-- The first item's data ends at the end of the node, and the data of every later item ends where
    that of the one before begins. -/
structure Packed (b : Bytes) : Prop where
  first : 0 < nItems b → nodeHdrSize + (dataRange b 0).stop = b.length
  next : ∀ i, i + 1 < nItems b → (dataRange b (i + 1)).stop = (dataRange b i).start

theorem packedFrom_iff_getElem : ∀ {l : List LeafItem} {stop : Nat}, PackedFrom stop l ↔
    (∀ it, l[0]? = some it → (dataSpan it).stop = stop) ∧
      ∀ i x y, l[i]? = some x → l[i + 1]? = some y → (dataSpan y).stop = (dataSpan x).start := by
  intro l
  induction l with
  | nil => exact fun {_} => ⟨fun _ => ⟨nofun, nofun⟩, fun _ => trivial⟩
  | cons a l ih =>
    intro stop
    rw [PackedFrom, ih]
    constructor
    · rintro ⟨hstop, hfirst, hnext⟩
      refine ⟨fun it hit => ?_, fun i x y hx hy => ?_⟩
      · obtain rfl : a = it := by simpa using hit
        exact hstop
      · rw [List.getElem?_cons_succ] at hy
        cases i with
        | zero =>
          obtain rfl : a = x := by simpa using hx
          exact hfirst y hy
        | succ i => exact hnext i x y (by simpa using hx) hy
    · rintro ⟨hfirst, hnext⟩
      exact ⟨hfirst a rfl, fun y hy => hnext 0 a y rfl hy, fun i x y hx hy => hnext (i + 1) x y hx hy⟩

theorem LeafOf.packed_iff (h : LeafOf b l) : Packed b ↔ PackedFrom (b.length - nodeHdrSize) l := by
  have hhdr : nodeHdrSize ≤ b.length := le_trans (Nat.le_add_right _ _) h.fits
  have hget : ∀ {i}, i < nItems b → ∃ it, l[i]? = some it := by
    intro i hi
    rw [h.count] at hi
    exact ⟨_, List.getElem?_eq_getElem hi⟩
  have hlt : ∀ {i it}, l[i]? = some it → i < nItems b := fun hi => h.count ▸ (List.getElem?_eq_some_iff.mp hi).1
  rw [packedFrom_iff_getElem]
  constructor
  · rintro ⟨hfirst, hnext⟩
    refine ⟨fun it hit => ?_, fun i x y hx hy => ?_⟩
    · have := hfirst (hlt hit)
      rw [h.dataRange hit] at this
      omega
    · rw [← h.dataRange hx, ← h.dataRange hy]
      exact hnext i (hlt hy)
  · rintro ⟨hfirst, hnext⟩
    refine ⟨fun hpos => ?_, fun i hi => ?_⟩
    · obtain ⟨it, hit⟩ := hget hpos
      have := hfirst it hit
      rw [h.dataRange hit]
      omega
    · obtain ⟨y, hy⟩ := hget hi
      obtain ⟨x, hx⟩ := hget (Nat.lt_of_succ_lt hi)
      rw [h.dataRange hx, h.dataRange hy]
      exact hnext i x y hx hy

/-- A leaf whose data is packed. -/
structure PackedLeaf (b : Bytes) : Prop where
  layout : Layout b
  packed : Packed b

theorem LeafOf.packedLeaf (h : LeafOf b l) (hp : PackedFrom (b.length - nodeHdrSize) l) : PackedLeaf b :=
  ⟨h.layout, h.packed_iff.mpr hp⟩

/-- A repacked leaf is packed. -/
theorem LeafOf.packedLeaf_of_packFrom {recs : List (Key × Bytes)} (h : LeafOf b (packFrom b.length recs)) :
    PackedLeaf b := by
  have hhdr : nodeHdrSize ≤ b.length := le_trans (Nat.le_add_right _ _) h.fits
  have hpay := h.data.payload_le_room
  rw [map_kv_packFrom] at hpay
  exact h.packedLeaf (packedFrom_packFrom recs b.length (by omega))

/-- The deletion at `idx` frees nothing, is at the end, or the next item has data. -/
def Deletable (b : Bytes) (idx : Nat) : Prop :=
  (itemDesc b idx).dataSize = 0 ∨ idx + 1 = nItems b ∨ 0 < (itemDesc b (idx + 1)).dataSize

/-- A call of a primitive that succeeds; deletions are of deletable items. -/
inductive Edit : Bytes → Bytes → Prop
  | insert {b b' : Bytes} (k : Key) (data : Bytes) (hk : FitsDisk k) (h : leafInsertItem b k data = .ok b') :
      Edit b b'
  | replace {b b' : Bytes} (idx : Nat) (data : Bytes) (hidx : idx < nItems b)
      (h : leafReplaceItemData b idx data = .ok b') : Edit b b'
  | delete {b b' : Bytes} (idx : Nat) (hidx : idx < nItems b) (hdel : Deletable b idx)
      (h : leafDeleteItem b idx = .ok b') : Edit b b'

/-- New data of the old length moves nothing. -/
theorem packedFrom_set_iff {it : LeafItem} {data : Bytes} {stop : Nat} (hit : l[idx]? = some it)
    (hlen : data.length = it.data.length) :
    PackedFrom stop (l.set idx { it with data := data }) ↔ PackedFrom stop l := by
  induction l generalizing idx stop with
  | nil => simp at hit
  | cons a l ih =>
    cases idx with
    | zero =>
      obtain rfl : a = it := by simpa using hit
      rw [List.set_cons_zero, PackedFrom, PackedFrom, hlen]
    | succ idx =>
      rw [List.getElem?_cons_succ] at hit
      rw [List.set_cons_succ, PackedFrom, PackedFrom, ih hit]

/-- One deletion. -/
theorem packed_delete_iff (h : PackedLeaf b) (hidx : idx < nItems b) (hrun : leafDeleteItem b idx = .ok b') :
    Layout b' ∧ (Packed b' ↔ Deletable b idx) := by
  have hl := h.layout.leafOf
  generalize (List.range (nItems b)).map (itemAt b) = l at hl
  have hpacked := hl.packed_iff.mp h.packed
  rw [hl.count] at hidx
  obtain ⟨b'', hrun', hlen, hleaf⟩ := leafDeleteItem_sim hl hidx
  rw [hrun, Except.ok.injEq] at hrun'
  subst hrun'
  refine ⟨hleaf.layout, hleaf.packed_iff.trans ?_⟩
  obtain ⟨before, del, after, rfl, rfl⟩ : ∃ before del after, l = before ++ del :: after ∧ before.length = idx :=
    ⟨l.take idx, l[idx], l.drop (idx + 1), by simp, by rw [List.length_take]; omega⟩
  rw [leafDeleteItem_split, hlen, packedFrom_delete_iff hpacked, Deletable]
  have hdel : (before ++ del :: after)[before.length]? = some del := by
    rw [List.getElem?_append_right le_rfl, Nat.sub_self, List.getElem?_cons_zero]
  have hhead : (before ++ del :: after)[before.length + 1]? = after.head? := by
    rw [List.getElem?_append_right (by omega), Nat.add_sub_cancel_left, List.getElem?_cons_succ,
      List.head?_eq_getElem?]
  rw [(hl.stores hdel).desc, hl.count, List.length_append, List.length_cons]
  refine or_congr_right ?_
  cases after with
  | nil => simp
  | cons a after =>
    rw [(hl.stores hhead).desc]
    simp

/-- One call keeps the leaf packed. -/
theorem PackedLeaf.edit (h : PackedLeaf b) (hstep : Edit b b') : PackedLeaf b' := by
  cases hstep with
  | insert k data hk hrun =>
    have hl := h.layout.leafOf
    generalize (List.range (nItems b)).map (itemAt b) = l at hl
    have hsim := leafInsertItem_sim hl hk data
    rw [hrun] at hsim
    obtain ⟨l', hrun', hlen, hleaf⟩ := hsim.ok
    simp only [Btrfs.leafInsertItem] at hrun'
    split_ifs at hrun'
    simp only [Except.ok.injEq] at hrun'
    subst hrun'
    rw [← hlen] at hleaf
    exact hleaf.packedLeaf_of_packFrom
  | replace idx data hidx hrun =>
    have hl := h.layout.leafOf
    generalize (List.range (nItems b)).map (itemAt b) = l at hl
    have hpacked := hl.packed_iff.mp h.packed
    rw [hl.count] at hidx
    have hsim := leafReplaceItemData_sim hl hidx data
    rw [hrun] at hsim
    obtain ⟨l', hrun', hlen, hleaf⟩ := hsim.ok
    have hit : l[idx]? = some l[idx] := List.getElem?_eq_getElem hidx
    generalize l[idx] = it at hit
    simp only [Btrfs.leafReplaceItemData, hit] at hrun'
    split_ifs at hrun' with hsame
    · simp only [Except.ok.injEq] at hrun'
      subst hrun'
      refine hleaf.packedLeaf ?_
      rw [hlen]
      exact (packedFrom_set_iff hit (by omega)).mpr hpacked
    · simp only [Except.ok.injEq] at hrun'
      subst hrun'
      rw [← hlen] at hleaf
      exact hleaf.packedLeaf_of_packFrom
  | delete idx hidx hdel hrun =>
    obtain ⟨hlay, hiff⟩ := packed_delete_iff h hidx hrun
    exact ⟨hlay, hiff.mpr hdel⟩

theorem PackedLeaf.run (h : PackedLeaf b) (hrun : Relation.ReflTransGen Edit b b') : PackedLeaf b' := by
  induction hrun with
  | refl => exact h
  | tail _ hstep ih => exact ih.edit hstep

/-- The data bytes of all items. -/
def dataTotal (b : Bytes) : Nat := ((List.range (nItems b)).map fun i => (itemDesc b i).dataSize).sum

theorem LeafOf.dataTotal (h : LeafOf b l) : dataTotal b = payload (l.map LeafItem.kv) := by
  have hmap := congrArg (List.map ItemDesc.dataSize) h.map_itemDesc
  rw [List.map_map, List.map_map] at hmap
  have hsum := congrArg List.sum hmap
  rw [Raw.dataTotal, h.count, payload, List.map_map]
  exact hsum

/-- A packed leaf refuses an item exactly if it does not hold it beside what it has. -/
theorem PackedLeaf.full_iff (h : PackedLeaf b) {k : Key} (hk : FitsDisk k) (data : Bytes) :
    (∃ e, leafInsertItem b k data = .error e) ↔
      b.length < nodeHdrSize + (nItems b + 1) * itemSize + dataTotal b + data.length := by
  have hl := h.layout.leafOf
  generalize (List.range (nItems b)).map (itemAt b) = l at hl
  have hhdr : nodeHdrSize ≤ b.length := le_trans (Nat.le_add_right _ _) hl.fits
  have harea := dataAreaEnd_of_packed l hhdr (hl.packed_iff.mp h.packed)
  have hsim := leafInsertItem_sim hl hk data
  rw [hl.dataTotal, hl.count, Nat.add_mul]
  simp only [Btrfs.leafInsertItem] at hsim
  cases hrun : leafInsertItem b k data with
  | error e =>
    rw [hrun] at hsim
    split_ifs at hsim with hfull
    · simp only [Except.error.injEq, exists_eq', true_iff]
      omega
    · cases e <;> exact hsim.elim
  | ok b' =>
    rw [hrun] at hsim
    split_ifs at hsim with hfull
    · exact hsim.elim
    · simp only [reduceCtorEq, exists_false, false_iff]
      omega

/-- In every run of calls whose deletions are of deletable items the leaf stays packed, and a full
    leaf is reported exactly when there is no room; and no other deletion keeps it packed. -/
theorem packing_kept (h : PackedLeaf b) (hrun : Relation.ReflTransGen Edit b b') :
    PackedLeaf b' ∧
    (∀ k data, FitsDisk k → ((∃ e, leafInsertItem b' k data = .error e) ↔
      b'.length < nodeHdrSize + (nItems b' + 1) * itemSize + dataTotal b' + data.length)) ∧
    ∀ idx < nItems b', ∃ c, leafDeleteItem b' idx = .ok c ∧ (PackedLeaf c ↔ Deletable b' idx) := by
  have hb' := h.run hrun
  refine ⟨hb', fun k data hk => hb'.full_iff hk data, fun idx hidx => ?_⟩
  have hl := hb'.layout.leafOf
  obtain ⟨c, hdel, -, -⟩ := leafDeleteItem_sim hl (by rwa [← hl.count])
  obtain ⟨hlay, hiff⟩ := packed_delete_iff hb' hidx hdel
  exact ⟨c, hdel, fun hc => hiff.mp hc.packed, fun hd => ⟨hlay, hiff.mpr hd⟩⟩

/-- An inode with three bytes of data, and an orphan item without data behind it. -/
def orphanLeaf : Bytes :=
  List.replicate 0x60 0 ++ (leBytes 4 2 ++ ([0] ++ (encodeDesc ⟨257, 1, 0⟩ 96 3 ++
    (encodeDesc ⟨0xfffffffffffffffb, 48, 257⟩ 96 0 ++ (List.replicate 46 0 ++ [1, 2, 3])))))

theorem orphanLeaf_packed : PackedLeaf orphanLeaf := by
  have hfacts : orphanLeaf.length = 200 ∧ nItems orphanLeaf = 2 ∧
      dataRange orphanLeaf 0 = ⟨96, 3⟩ ∧ dataRange orphanLeaf 1 = ⟨96, 0⟩ := by decide +kernel
  generalize orphanLeaf = b at *
  obtain ⟨hlen, hn, h0, h1⟩ := hfacts
  have hempty : Disjoint (⟨96, 3⟩ : Span).bytes (⟨96, 0⟩ : Span).bytes := by
    refine Set.disjoint_left.mpr fun p _ hp => ?_
    rw [Span.mem_bytes] at hp
    dsimp only at hp
    omega
  have htwo : ∀ i < 2, i = 0 ∨ i = 1 := by omega
  refine ⟨⟨by rw [hlen]; decide, by rw [hn, hlen]; decide, ?_, ?_⟩, ?_, ?_⟩
  · rw [hn, hlen]
    intro i hi
    rcases htwo i hi with rfl | rfl
    · rw [h0]; decide
    · rw [h1]; decide
  · rw [hn]
    intro i hi j hj hne
    rcases htwo i hi with rfl | rfl <;> rcases htwo j hj with rfl | rfl
    · exact absurd rfl hne
    · rw [h0, h1]; exact hempty
    · rw [h0, h1]; exact hempty.symm
    · exact absurd rfl hne
  · rw [h0, hlen]
    exact fun _ => rfl
  · rw [hn]
    intro i hi
    obtain rfl : i = 0 := by omega
    rw [h0, h1]
    rfl

theorem packing_kept_orphan : ∃ b', leafDeleteItem orphanLeaf 1 = .ok b' ∧ PackedLeaf b' ∧
    ((∃ e, leafInsertItem b' ⟨258, 1, 0⟩ (List.replicate 47 0) = .error e) ↔
      200 < nodeHdrSize + 2 * itemSize + 3 + 47) := by
  have hfacts : (leafDeleteItem orphanLeaf 1).toOption.isSome = true ∧ nItems orphanLeaf = 2 ∧
      (itemDesc orphanLeaf 1).dataSize = 0 ∧ (leafDeleteItem orphanLeaf 1).toOption.all
        (fun b' => decide (b'.length = 200 ∧ nItems b' = 1 ∧ dataTotal b' = 3)) = true := by decide +kernel
  have hpacked := orphanLeaf_packed
  generalize orphanLeaf = b at *
  obtain ⟨hok, hn, hsize, hall⟩ := hfacts
  cases hrun : leafDeleteItem b 1 with
  | error e => rw [hrun] at hok; cases hok
  | ok b' =>
    rw [hrun] at hall
    obtain ⟨hlen, hn', htotal⟩ := of_decide_eq_true hall
    obtain ⟨hleaf, hfull, -⟩ := packing_kept hpacked
      (.single (Edit.delete 1 (by rw [hn]; decide) (Or.inl hsize) hrun))
    refine ⟨b', rfl, hleaf, ?_⟩
    have h := hfull ⟨258, 1, 0⟩ (List.replicate 47 0) ⟨by decide, by decide, by decide⟩
    rwa [hlen, hn', htotal, List.length_replicate] at h

/-- The orphan item stays at the offset of the inode it stood behind, three bytes before the end. -/
theorem delete_unpacks_orphan : PackedLeaf orphanLeaf ∧
    ∃ b', leafDeleteItem orphanLeaf 0 = .ok b' ∧ nItems b' = 1 ∧ dataRange b' 0 = ⟨96, 0⟩ ∧
      b'.length = 200 ∧ ¬ Packed b' := by
  refine ⟨orphanLeaf_packed, ?_⟩
  have hfacts : (leafDeleteItem orphanLeaf 0).toOption.isSome = true ∧ (leafDeleteItem orphanLeaf 0).toOption.all
        (fun b' => decide (nItems b' = 1 ∧ dataRange b' 0 = ⟨96, 0⟩ ∧ b'.length = 200)) = true := by
    decide +kernel
  generalize leafDeleteItem orphanLeaf 0 = r at *
  obtain ⟨hok, hall⟩ := hfacts
  cases r with
  | error e => cases hok
  | ok b' =>
    obtain ⟨hn, hrange, hlen⟩ := of_decide_eq_true hall
    refine ⟨b', rfl, hn, hrange, hlen, fun hp => ?_⟩
    have hstop := hp.first (by rw [hn]; decide)
    rw [hrange, hlen] at hstop
    exact absurd hstop (by decide)

end Btrfs.Raw
