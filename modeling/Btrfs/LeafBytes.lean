/-
  Btrfs/LeafBytes.lean
  ====================
  **Leaves as byte buffers** — the leaf primitives of `cow.go`, on the bytes they edit.

  A leaf buffer is a header, an array of item descriptors that grows forward, and the data
  of the items somewhere behind it.  The primitives read the number of items from the
  header and edit descriptors and data in place; every access is checked, as the language
  does it, so an edit of a broken leaf may stop out of range.

  `Node.lean` models the same primitives on the list of items a buffer decodes to.  On a
  buffer whose data ranges lie behind the descriptors and do not share a byte, in any order
  and with any gaps, the two agree: the edit of the bytes decodes to the edit of the list,
  and such a buffer is left behind again (`leafInsertItem_sim`, `leafReplaceItemData_sim`,
  `leafDeleteItem_sim`).
-/
import Btrfs.LeafSplit
import Btrfs.Lib.Checked

namespace Btrfs.Raw

open Lib

/-- A run on byte buffers. -/
abbrev Go (α : Type) := Checked Err α

/-! ## 1. Reading a leaf -/

/-- Where the descriptor of item `i` begins. -/
def descOff (i : Nat) : Nat := nodeHdrSize + i * itemSize

/-- A parsed descriptor; `dataOff` is relative to the end of the header. -/
structure ItemDesc where
  k : Key
  dataOff : Nat
  dataSize : Nat
  deriving DecidableEq, Repr

/-- The key at `off`. -/
def keyAt (b : Bytes) (off : Nat) : Key := ⟨leAt 8 off b, leAt 1 (off + 8) b, leAt 8 (off + 9) b⟩

/-- The descriptor of item `i`. -/
def itemDesc (b : Bytes) (i : Nat) : ItemDesc :=
  ⟨keyAt b (descOff i), leAt 4 (descOff i + 17) b, leAt 4 (descOff i + 21) b⟩

/-- The number of items in the header. -/
def nItems (b : Bytes) : Nat := leAt 4 0x60 b

/-- `parseNodeHeader`, of which the primitives use the number of items. -/
def parseNodeHeader (b : Bytes) : Go Nat :=
  if nodeHdrSize ≤ b.length then .ok (nItems b) else .error .outOfRange

/-- Read a whole descriptor. -/
def readDesc (b : Bytes) (i : Nat) : Go ItemDesc :=
  if descOff i + itemSize ≤ b.length then .ok (itemDesc b i) else .error .outOfRange

/-- The descriptors of the first `n` items, as far as the buffer holds them. -/
def parseLeafItems (b : Bytes) (n : Nat) : Go (List ItemDesc) :=
  ((List.range n).takeWhile fun i => decide (descOff i + itemSize ≤ b.length)).mapM (readDesc b)

/-- The data of an item, or nothing if it does not lie in the buffer. -/
def ItemDesc.data (d : ItemDesc) (b : Bytes) : Go Bytes :=
  if b.length < nodeHdrSize + d.dataOff + d.dataSize then .ok []
  else slice b (nodeHdrSize + d.dataOff) (nodeHdrSize + d.dataOff + d.dataSize)

/-- The keys of a leaf and their data, as the readers see them. -/
def leafRecords (b : Bytes) : Go (List (Key × Bytes)) := do
  let n ← parseNodeHeader b
  let items ← parseLeafItems b n
  items.mapM fun d => do return (d.k, ← d.data b)

/-! ## 2. The primitives -/

/-- The bytes of a descriptor. -/
def encodeDesc (k : Key) (dataOff dataSize : Nat) : Bytes :=
  leBytes 8 k.objID ++ (leBytes 1 k.typ ++ (leBytes 8 k.offset ++
    (leBytes 4 dataOff ++ leBytes 4 dataSize)))

def writeDesc (i : Nat) (k : Key) (dataOff dataSize : Nat) (b : Bytes) : Go Bytes :=
  if descOff i + itemSize ≤ b.length then .ok (putAt (descOff i) (encodeDesc k dataOff dataSize) b)
  else .error .outOfRange

/-- `uint32(cursor - nodeHdrSize)`. -/
def relOff (cursor : Nat) : Nat := (cursor + 2 ^ 32 - nodeHdrSize) % 2 ^ 32

/-- Write descriptors from index `i` on and pack the data backward from `cursor`. -/
def writeRecs : Nat → Nat → List (Key × Bytes) → Bytes → Go Bytes
  | _, _, [], b => .ok b
  | i, cursor, (k, d) :: recs, b =>
    if cursor < d.length then .error .outOfRange
    else do
      let b ← copyAt (cursor - d.length) d b
      let b ← writeDesc i k (relOff (cursor - d.length)) d.length b
      writeRecs (i + 1) (cursor - d.length) recs b

/-- The copy of an item that is made before the buffer is rewritten. -/
def snapshot (b : Bytes) (d : ItemDesc) : Go (Key × Bytes) := do
  return (d.k, ← slice b (nodeHdrSize + d.dataOff) (nodeHdrSize + d.dataOff + d.dataSize))

/-- Where the data area begins: the lowest data offset in use. -/
def dataAreaEnd (nodeSize : Nat) (descs : List ItemDesc) : Nat :=
  descs.foldl
    (fun acc d => if d.dataOff < acc - nodeHdrSize then nodeHdrSize + d.dataOff else acc)
    nodeSize

/-- Insert `(k, data)` at its sorted position and repack the data area. -/
def leafInsertItem (b : Bytes) (k : Key) (data : Bytes) : Go Bytes := do
  let n ← parseNodeHeader b
  let descs ← (List.range n).mapM (readDesc b)
  let needed := itemSize + data.length
  let dataUsed := b.length - dataAreaEnd b.length descs
  let headerUsed := nodeHdrSize + n * itemSize
  let free : Int := b.length - headerUsed - dataUsed
  if free < needed then
    throw (.err (.wrap "%w (need %d, have %d free)" [.num needed, .num free] (.sentinel .errLeafFull)))
  let recs ← descs.mapM (snapshot b)
  let b ← writeRecs 0 b.length (recs.insertIdx (insertPos recs k) (k, data)) b
  putField 4 0x60 (n + 1) b

/-- Overwrite the data of the item at `idx` by as many bytes. -/
def leafUpdateItemSameSize (b : Bytes) (idx : Nat) (newData : Bytes) : Go Bytes := do
  let dataOff ← fieldAt 4 (descOff idx + 17) b
  let dataSize ← fieldAt 4 (descOff idx + 21) b
  if dataSize ≠ newData.length then
    throw (.err (.errorf "btrfs: leafUpdateItemSameSize: size mismatch %d != %d"
      [.num dataSize, .num newData.length]))
  copyAt (nodeHdrSize + dataOff) newData b

/-- Replace the data of the item at `idx`; a change of size rebuilds everything behind the header. -/
def leafReplaceItemData (b : Bytes) (idx : Nat) (newData : Bytes) : Go Bytes := do
  let n ← parseNodeHeader b
  let oldDataSize ← fieldAt 4 (descOff idx + 21) b
  let delta : Int := newData.length - oldDataSize
  if delta = 0 then leafUpdateItemSameSize b idx newData
  else
    let descs ← (List.range n).mapM (readDesc b)
    let dataUsed := (descs.map ItemDesc.dataSize).sum
    let free : Int := b.length - nodeHdrSize - n * itemSize - dataUsed
    if free < delta then
      throw (.err (.errorf "btrfs: not enough space to expand item (%d vs %d free)"
        [.num delta, .num free]))
    let snaps ← descs.mapM (snapshot b)
    match snaps[idx]? with
    | none => throw .outOfRange
    | some s =>
      let b ← clearRange nodeHdrSize b.length b
      let b ← putField 4 0x60 n b
      writeRecs 0 b.length (snaps.set idx (s.1, newData)) b

/-- The lowest data offset in use. -/
def minDataOff (start : Nat) (doffs : List Nat) : Nat :=
  doffs.foldl (fun acc doff => if doff < acc then doff else acc) start

/-- Move the data below the deleted item up over it, and clear what is left behind. -/
def closeGap (low delDataOff delDataSize : Nat) (b : Bytes) : Go Bytes := do
  let srcStart := nodeHdrSize + low
  let srcEnd := nodeHdrSize + delDataOff
  let dstStart := srcStart + delDataSize
  let b ← if srcStart < srcEnd then do
      let moved ← slice b srcStart srcEnd
      let _ ← slice b dstStart (dstStart + (srcEnd - srcStart))
      copyAt dstStart moved b
    else pure b
  clearRange srcStart (srcStart + delDataSize) b

/-- Re-base the data offset of item `i` if its data was moved. -/
def shiftDesc (delDataOff delDataSize : Nat) (b : Bytes) (i : Nat) : Go Bytes := do
  let doff ← fieldAt 4 (descOff i + 17) b
  if doff < delDataOff then putField 4 (descOff i + 17) (doff + delDataSize) b
  else pure b

/-- Remove the item at `idx`; data lying below the freed range moves up over it. -/
def leafDeleteItem (b : Bytes) (idx : Nat) : Go Bytes := do
  let n ← parseNodeHeader b
  let delDataOff ← fieldAt 4 (descOff idx + 17) b
  let delDataSize ← fieldAt 4 (descOff idx + 21) b
  let others := (List.range n).filter (· ≠ idx)
  let doffs ← others.mapM fun i => fieldAt 4 (descOff i + 17) b
  let b ← closeGap (minDataOff delDataOff doffs) delDataOff delDataSize b
  let b ← others.foldlM (shiftDesc delDataOff delDataSize) b
  let later ← slice b (descOff (idx + 1)) (descOff n)
  let b ← copyAt (descOff idx) later b
  let b ← clearRange (descOff (n - 1)) (descOff n) b
  putField 4 0x60 (n - 1) b

/-! ## 3. Buffers that stand for a list of items -/

theorem descOff_succ (i : Nat) : descOff (i + 1) = descOff i + itemSize := by
  simp only [descOff, Nat.add_mul, Nat.one_mul]
  omega

theorem descOff_mono {i j : Nat} (h : i ≤ j) : descOff i ≤ descOff j :=
  Nat.add_le_add_left (Nat.mul_le_mul_right _ h) _

/-- The key is one the on-disk fields can hold. -/
structure FitsDisk (k : Key) : Prop where
  objID : k.objID < 256 ^ 8
  typ : k.typ < 256 ^ 1
  offset : k.offset < 256 ^ 8

theorem fitsDisk_keyAt (b : Bytes) (off : Nat) : FitsDisk (keyAt b off) :=
  ⟨leAt_lt _ _ _, leAt_lt _ _ _, leAt_lt _ _ _⟩

/-- The descriptor at `i` is that of the item, and points to its data. -/
structure Stores (b : Bytes) (i : Nat) (it : LeafItem) : Prop where
  desc : itemDesc b i = ⟨it.k, it.dataOff, it.data.length⟩
  data : (b.drop (nodeHdrSize + it.dataOff)).take it.data.length = it.data
  within : nodeHdrSize + it.dataOff + it.data.length ≤ b.length

/-- The buffer decodes to the list. -/
structure Represents (b : Bytes) (l : List LeafItem) : Prop where
  size : b.length < 2 ^ 32
  count : nItems b = l.length
  fits : descOff l.length ≤ b.length
  stores : ∀ {i it}, l[i]? = some it → Stores b i it

/-- The bytes of the data, relative to the end of the header. -/
def dataSpan (it : LeafItem) : Span := ⟨it.dataOff, it.data.length⟩

/-- Data behind the descriptors and in the node, and no byte of it shared. -/
structure DataApart (ns : Nat) (l : List LeafItem) : Prop where
  inside : ∀ it ∈ l, l.length * itemSize ≤ it.dataOff ∧ nodeHdrSize + it.dataOff + it.data.length ≤ ns
  apart : Scattered (l.map dataSpan)

theorem itemDesc_congr {b b' : Bytes} {i j : Nat}
    (h : ∀ p < itemSize, b'[descOff j + p]? = b[descOff i + p]?) : itemDesc b' j = itemDesc b i := by
  have hfield : ∀ w o, o + w ≤ itemSize → leAt w (descOff j + o) b' = leAt w (descOff i + o) b := by
    intro w o ho
    refine leAt_congr fun p hp => ?_
    rw [Nat.add_assoc, Nat.add_assoc]
    exact h (o + p) (by omega)
  simp only [itemSize] at hfield
  simp only [itemDesc, keyAt]
  have h0 := hfield 8 0 (by omega)
  rw [Nat.add_zero, Nat.add_zero] at h0
  rw [h0, hfield 1 8 (by omega), hfield 8 9 (by omega), hfield 4 17 (by omega), hfield 4 21 (by omega)]

theorem Stores.congr {b b' : Bytes} {i : Nat} {it : LeafItem} (h : Stores b i it)
    (hlen : b'.length = b.length)
    (hdesc : ∀ p, descOff i ≤ p → p < descOff (i + 1) → b'[p]? = b[p]?)
    (hdata : ∀ p, nodeHdrSize + it.dataOff ≤ p → p < nodeHdrSize + it.dataOff + it.data.length →
      b'[p]? = b[p]?) : Stores b' i it := by
  refine ⟨?_, ?_, hlen ▸ h.within⟩
  · rw [← h.desc]
    refine itemDesc_congr fun p hp => hdesc _ (by omega) ?_
    rw [descOff_succ]
    omega
  · rw [take_drop_congr (b := b) fun p hp => hdata _ (by omega) (by omega)]
    exact h.data

namespace Represents

variable {b : Bytes} {l : List LeafItem}

theorem parseNodeHeader (h : Represents b l) : parseNodeHeader b = .ok l.length := by
  have hfits := h.fits
  rw [Raw.parseNodeHeader, if_pos (by rw [descOff] at hfits; omega), h.count]

theorem descOff_le (h : Represents b l) {i : Nat} (hi : i < l.length) : descOff i + itemSize ≤ b.length := by
  rw [← descOff_succ]
  exact (descOff_mono hi).trans h.fits

theorem readDesc (h : Represents b l) {i : Nat} (hi : i < l.length) : readDesc b i = .ok (itemDesc b i) :=
  if_pos (h.descOff_le hi)

/-- The descriptors of the list. -/
theorem map_itemDesc (h : Represents b l) :
    (List.range l.length).map (itemDesc b) = l.map fun it => ⟨it.k, it.dataOff, it.data.length⟩ := by
  apply List.ext_getElem?
  intro i
  simp only [List.getElem?_map]
  rcases Nat.lt_or_ge i l.length with hi | hi
  · rw [List.getElem?_range hi, List.getElem?_eq_getElem hi]
    exact congrArg some (h.stores (List.getElem?_eq_getElem hi)).desc
  · rw [List.getElem?_eq_none hi, List.getElem?_eq_none (by rwa [List.length_range])]
    rfl

theorem readDescs (h : Represents b l) :
    (List.range l.length).mapM (Raw.readDesc b) = .ok (l.map fun it => ⟨it.k, it.dataOff, it.data.length⟩) := by
  rw [← h.map_itemDesc]
  exact mapM_eq_ok fun i hi => h.readDesc (List.mem_range.mp hi)

theorem mem (h : Represents b l) {it : LeafItem} (hit : it ∈ l) : ∃ i, l[i]? = some it ∧ Stores b i it := by
  obtain ⟨i, hi⟩ := List.getElem?_of_mem hit
  exact ⟨i, hi, h.stores hi⟩

theorem slice (h : Represents b l) {it : LeafItem} (hit : it ∈ l) :
    (slice b (nodeHdrSize + it.dataOff) (nodeHdrSize + it.dataOff + it.data.length) : Go Bytes) = .ok it.data := by
  obtain ⟨i, -, hst⟩ := h.mem hit
  rw [slice_of_le (by omega) hst.within, Nat.add_sub_cancel_left, hst.data]

/-- The snapshots are the records. -/
theorem snapshots (h : Represents b l) :
    (l.map fun it => (⟨it.k, it.dataOff, it.data.length⟩ : ItemDesc)).mapM (snapshot b) =
      .ok (l.map LeafItem.kv) := by
  rw [List.mapM_map]
  exact mapM_eq_ok fun it hit => by simp only [Function.comp, snapshot, h.slice hit]; rfl

/-- The readers see the records of the list. -/
theorem leafRecords (h : Represents b l) : leafRecords b = .ok (l.map LeafItem.kv) := by
  have hwhile : ((List.range l.length).takeWhile fun i => decide (descOff i + itemSize ≤ b.length)) =
      List.range l.length := by
    rw [List.takeWhile_eq_self_iff]
    exact fun i hi => decide_eq_true (h.descOff_le (List.mem_range.mp hi))
  rw [Raw.leafRecords, h.parseNodeHeader, Checked.ok_bind, parseLeafItems, hwhile, h.readDescs,
    Checked.ok_bind, List.mapM_map]
  refine mapM_eq_ok fun it hit => ?_
  obtain ⟨i, -, hst⟩ := h.mem hit
  simp only [Function.comp, ItemDesc.data]
  rw [if_neg (by have := hst.within; omega), h.slice hit]
  rfl

theorem fitsDisk (h : Represents b l) : ∀ r ∈ l.map LeafItem.kv, FitsDisk r.1 := by
  intro r hr
  obtain ⟨it, hit, rfl⟩ := List.mem_map.mp hr
  obtain ⟨i, -, hst⟩ := h.mem hit
  have hk : it.k = keyAt b (descOff i) := congrArg ItemDesc.k hst.desc.symm
  rw [LeafItem.kv_fst, hk]
  exact fitsDisk_keyAt b _

end Represents

/-! ## 4. Writing descriptors and data -/

theorem length_encodeDesc (k : Key) (cursor size : Nat) : (encodeDesc k cursor size).length = itemSize := by
  simp only [encodeDesc, List.length_append, length_leBytes]
  rfl

/-- A field of a part of the buffer. -/
theorem leAt_part {b : Bytes} {off m w o : Nat} (h : o + w ≤ m) :
    leAt w (off + o) b = leAt w o ((b.drop off).take m) := by
  refine leAt_congr fun p hp => ?_
  rw [List.getElem?_take, if_pos (by omega), List.getElem?_drop, Nat.add_assoc]

theorem relOff_of_le {cursor : Nat} (hlo : nodeHdrSize ≤ cursor) (hhi : cursor < 2 ^ 32) :
    relOff cursor = cursor - nodeHdrSize := by
  rw [relOff]
  omega

theorem itemDesc_of_encoded {b : Bytes} {i doff size : Nat} {k : Key}
    (h : (b.drop (descOff i)).take itemSize = encodeDesc k doff size) (hk : FitsDisk k)
    (hoff : doff < 256 ^ 4) (hsize : size < 256 ^ 4) : itemDesc b i = ⟨k, doff, size⟩ := by
  have hfield : ∀ w o, o + w ≤ itemSize → leAt w (descOff i + o) b = leAt w o (encodeDesc k doff size) :=
    fun w o ho => h ▸ leAt_part ho
  simp only [itemSize] at hfield
  have hobj : leAt 8 (descOff i) b = k.objID :=
    (hfield 8 0 (by omega)).trans (leAt_of_append (a := []) rfl rfl hk.objID)
  have htyp : leAt 1 (descOff i + 8) b = k.typ := by
    rw [hfield 1 8 (by omega)]
    exact leAt_of_append (a := leBytes 8 k.objID) rfl (length_leBytes _ _) hk.typ
  have hoffset : leAt 8 (descOff i + 9) b = k.offset := by
    have hsplit : encodeDesc k doff size = (leBytes 8 k.objID ++ leBytes 1 k.typ) ++
        (leBytes 8 k.offset ++ (leBytes 4 doff ++ leBytes 4 size)) := (List.append_assoc _ _ _).symm
    rw [hfield 8 9 (by omega)]
    exact leAt_of_append hsplit (by simp) hk.offset
  have hdoff : leAt 4 (descOff i + 17) b = doff := by
    rw [hfield 4 17 (by omega), leAt, encodeDesc, ← List.append_assoc, ← List.append_assoc,
      List.drop_left' (by simp), List.take_left' (length_leBytes _ _), leNat_leBytes_of_lt hoff]
  have hsz : leAt 4 (descOff i + 21) b = size := by
    rw [hfield 4 21 (by omega), leAt, encodeDesc, ← List.append_assoc, ← List.append_assoc,
      ← List.append_assoc, List.drop_left' (by simp), List.take_of_length_le (by simp),
      leNat_leBytes_of_lt hsize]
  simp only [itemDesc, keyAt, hobj, htyp, hoffset, hdoff, hsz]

/-- The records are laid out as `packFrom` says; nothing else changes. -/
theorem writeRecs_ok : ∀ (recs : List (Key × Bytes)) (i cursor : Nat) (b : Bytes),
    (∀ r ∈ recs, FitsDisk r.1) → b.length < 2 ^ 32 → cursor ≤ b.length →
    descOff (i + recs.length) + payload recs ≤ cursor →
    ∃ b', writeRecs i cursor recs b = .ok b' ∧ b'.length = b.length ∧
      (∀ p, p < descOff i ∨ cursor ≤ p → b'[p]? = b[p]?) ∧
      ∀ {j it}, (packFrom cursor recs)[j]? = some it → Stores b' (i + j) it := by
  intro recs
  induction recs with
  | nil =>
    intro i cursor b _ _ _ _
    exact ⟨b, rfl, rfl, fun _ _ => rfl, fun h => by simp [packFrom] at h⟩
  | cons r recs ih =>
    intro i cursor b hfit hsize hcur hroom
    obtain ⟨k, d⟩ := r
    have hpay : payload ((k, d) :: recs) = d.length + payload recs := rfl
    have hlen : i + ((k, d) :: recs).length = i + 1 + recs.length := by
      rw [List.length_cons]
      omega
    rw [hpay, hlen] at hroom
    -- the descriptor ends before the data begins
    have hdesc : descOff i + itemSize ≤ cursor - d.length := by
      have := descOff_mono (show i + 1 ≤ i + 1 + recs.length by omega)
      rw [← descOff_succ]
      omega
    have hhdr : nodeHdrSize ≤ descOff i := Nat.le_add_right _ _
    generalize hb₁ : putAt (cursor - d.length) d b = b₁
    have hrel : relOff (cursor - d.length) = cursor - d.length - nodeHdrSize :=
      relOff_of_le (by omega) (by omega)
    generalize hb₂ : putAt (descOff i) (encodeDesc k (cursor - d.length - nodeHdrSize) d.length) b₁ = b₂
    have hlen₁ : b₁.length = b.length := hb₁ ▸ length_putAt (by omega)
    have henc : descOff i + (encodeDesc k (cursor - d.length - nodeHdrSize) d.length).length ≤ b₁.length := by
      rw [length_encodeDesc]
      omega
    have hlen₂ : b₂.length = b.length := by rw [← hb₂, length_putAt henc, hlen₁]
    obtain ⟨b', hrun, hlen', hframe, hst⟩ := ih (i + 1) (cursor - d.length) b₂
      (fun r hr => hfit r (List.mem_cons_of_mem _ hr)) (by omega) (by omega) (by omega)
    have hfirst : Stores b₂ i ⟨k, cursor - d.length - nodeHdrSize, d⟩ := by
      have hback : nodeHdrSize + (cursor - d.length - nodeHdrSize) = cursor - d.length := by omega
      refine ⟨?_, ?_, ?_⟩ <;> dsimp only
      · refine itemDesc_of_encoded ?_ (hfit (k, d) List.mem_cons_self) (by omega) (by omega)
        have h := take_drop_putAt_self (x := encodeDesc k (cursor - d.length - nodeHdrSize) d.length)
          (show descOff i ≤ b₁.length by omega)
        rwa [length_encodeDesc, hb₂] at h
      · rw [hback, ← hb₂, take_drop_putAt_of_disjoint henc (Or.inr (by rw [length_encodeDesc]; omega)),
          ← hb₁]
        exact take_drop_putAt_self (by omega)
      · rw [hback]
        omega
    refine ⟨b', ?_, by omega, ?_, ?_⟩
    · rw [writeRecs, if_neg (by omega), copyAt_of_le (by omega), Checked.ok_bind, hb₁, hrel, writeDesc,
        if_pos (by omega), Checked.ok_bind, hb₂]
      exact hrun
    · intro p hp
      rw [hframe p (by rw [descOff_succ]; omega), ← hb₂, getElem?_putAt henc,
        if_neg (by rw [length_encodeDesc]; omega), ← hb₁, getElem?_putAt (by omega), if_neg (by omega)]
    · intro j it hj
      cases j with
      | zero =>
        simp only [packFrom, List.getElem?_cons_zero, Option.some.injEq] at hj
        subst hj
        exact hfirst.congr (by omega) (fun p _ hp => hframe p (Or.inl hp))
          (fun p hp _ => hframe p (Or.inr (by dsimp only at hp; omega)))
      | succ j =>
        rw [packFrom, List.getElem?_cons_succ] at hj
        have h := hst hj
        rwa [Nat.add_assoc, Nat.add_comm 1] at h

/-! ## 5. The list model keeps the data apart -/

/-- A buffer that decodes to the list, with the data apart. -/
structure LeafOf (b : Bytes) (l : List LeafItem) : Prop extends Represents b l where
  data : DataApart b.length l

/-- The run on the buffer ends as the run on the list does. -/
def Agrees (ns : Nat) : Go Bytes → Except Err (List LeafItem) → Prop
  | .ok b, .ok l => b.length = ns ∧ LeafOf b l
  | .error (.err e), .error e' => e = e'
  | _, _ => False

theorem length_packFrom (cursor : Nat) (recs : List (Key × Bytes)) :
    (packFrom cursor recs).length = recs.length := by
  have h := congrArg List.length (map_kv_packFrom recs cursor)
  rwa [List.length_map] at h

theorem packFrom_apart (m : Nat) : ∀ (recs : List (Key × Bytes)) (cursor : Nat),
    nodeHdrSize + m + payload recs ≤ cursor →
    (∀ it ∈ packFrom cursor recs, m ≤ it.dataOff ∧ nodeHdrSize + it.dataOff + it.data.length ≤ cursor) ∧
      Scattered ((packFrom cursor recs).map dataSpan) := by
  intro recs
  induction recs with
  | nil => exact fun _ _ => ⟨nofun, scattered_nil⟩
  | cons r recs ih =>
    intro cursor hroom
    obtain ⟨k, d⟩ := r
    have hpay : payload ((k, d) :: recs) = d.length + payload recs := rfl
    obtain ⟨hin, hsc⟩ := ih (cursor - d.length) (by omega)
    refine ⟨?_, ?_⟩
    · simp only [packFrom, List.forall_mem_cons]
      refine ⟨by omega, fun it hit => ?_⟩
      have := hin it hit
      omega
    · rw [packFrom, List.map_cons, scattered_cons]
      refine ⟨Set.disjoint_left.mpr ?_, hsc⟩
      rintro p hp ⟨s, hs, hps⟩
      obtain ⟨it, hit, rfl⟩ := List.mem_map.mp hs
      have := hin it hit
      simp only [dataSpan, Span.mem_bytes] at hp hps
      omega

theorem dataApart_packFrom {ns : Nat} {recs : List (Key × Bytes)} (h : LeafFits ns recs) :
    DataApart ns (packFrom ns recs) := by
  rw [LeafFits, packedSize, ← payload] at h
  obtain ⟨hin, hsc⟩ := packFrom_apart (recs.length * itemSize) recs ns (by omega)
  refine ⟨fun it hit => ?_, hsc⟩
  rw [length_packFrom]
  exact hin it hit

theorem dataAreaEnd_le_of_le {l : List LeafItem} : ∀ {acc : Nat},
    l.foldl (fun acc it => if it.dataOff < acc - nodeHdrSize then nodeHdrSize + it.dataOff else acc) acc ≤
      acc := by
  induction l with
  | nil => exact le_rfl
  | cons it l ih =>
    intro acc
    rw [List.foldl_cons]
    refine ih.trans ?_
    split_ifs <;> omega

/-- The data area begins at or before the data of every item. -/
theorem dataAreaEnd_le {ns : Nat} {l : List LeafItem} {it : LeafItem} (hit : it ∈ l) :
    Btrfs.dataAreaEnd ns l ≤ nodeHdrSize + it.dataOff := by
  rw [Btrfs.dataAreaEnd]
  induction l generalizing ns with
  | nil => cases hit
  | cons a l ih =>
    rw [List.foldl_cons]
    rcases List.mem_cons.mp hit with rfl | hit
    · refine dataAreaEnd_le_of_le.trans ?_
      split_ifs <;> omega
    · exact ih hit

/-- Data that begins at `lo` or behind it is no longer than what is left of the node. -/
theorem DataApart.payload_le_from {ns lo : Nat} {l : List LeafItem} (h : DataApart ns l)
    (hlo : ∀ it ∈ l, lo ≤ nodeHdrSize + it.dataOff) :
    payload (l.map LeafItem.kv) ≤ ns - nodeHdrSize - (lo - nodeHdrSize) := by
  have hin : ∀ s ∈ l.map dataSpan, lo - nodeHdrSize ≤ s.start ∧ s.stop ≤ ns - nodeHdrSize := by
    intro s hs
    obtain ⟨it, hit, rfl⟩ := List.mem_map.mp hs
    have hstop := (h.inside it hit).2
    have hstart := hlo it hit
    simp only [dataSpan, Span.stop]
    omega
  have hsum := h.apart.sum_size_le hin
  rw [List.map_map] at hsum
  rw [payload, List.map_map]
  exact hsum

theorem DataApart.payload_le {ns : Nat} {l : List LeafItem} (h : DataApart ns l) :
    payload (l.map LeafItem.kv) ≤ ns - Btrfs.dataAreaEnd ns l := by
  have hlo : ∀ it ∈ l, Btrfs.dataAreaEnd ns l ≤ nodeHdrSize + it.dataOff := fun it hit => dataAreaEnd_le hit
  have hle := h.payload_le_from hlo
  omega

theorem DataApart.payload_le_room {ns : Nat} {l : List LeafItem} (h : DataApart ns l) :
    payload (l.map LeafItem.kv) ≤ ns - nodeHdrSize := by
  have hle := h.payload_le_from fun it _ => Nat.le_add_right nodeHdrSize it.dataOff
  omega

theorem DataApart.disjoint {ns i j : Nat} {l : List LeafItem} {a c : LeafItem} (h : DataApart ns l)
    (hi : l[i]? = some a) (hj : l[j]? = some c) (hne : i ≠ j) :
    Disjoint (dataSpan a).bytes (dataSpan c).bytes := by
  have hpair : ∀ {i j : Nat} {a c : LeafItem}, l[i]? = some a → l[j]? = some c → i < j →
      Disjoint (dataSpan a).bytes (dataSpan c).bytes := by
    intro i j a c hi hj hlt
    have hpw := List.pairwise_map.mp h.apart
    obtain ⟨hil, rfl⟩ := List.getElem?_eq_some_iff.mp hi
    obtain ⟨hjl, rfl⟩ := List.getElem?_eq_some_iff.mp hj
    exact List.pairwise_iff_getElem.mp hpw i j hil hjl hlt
  rcases Nat.lt_or_gt_of_ne hne with hlt | hgt
  · exact hpair hi hj hlt
  · exact (hpair hj hi hgt).symm

/-! ## 6. Insertion and replacement -/

section insert

variable {b : Bytes} {l : List LeafItem} {k : Key} {data : Bytes} {idx : Nat}

/-- The number of items in the header is none of an item's bytes. -/
theorem Stores.putCount {i : Nat} {it : LeafItem} (h : Stores b i it) (hlen : nodeHdrSize ≤ b.length)
    (v : Nat) : Stores (putLE 4 0x60 v b) i it := by
  have hin : 0x60 + (leBytes 4 v).length ≤ b.length := by
    rw [length_leBytes]
    exact le_trans (by decide) hlen
  have hframe : ∀ p, nodeHdrSize ≤ p → (putLE 4 0x60 v b)[p]? = b[p]? := by
    intro p hp
    rw [putLE, getElem?_putAt hin, if_neg]
    rw [length_leBytes]
    simp only [nodeHdrSize] at hp
    omega
  refine h.congr (length_putAt hin) (fun p hp _ => hframe p ?_) (fun p hp _ => hframe p (by omega))
  exact le_trans (Nat.le_add_right _ _) hp

theorem nItems_putCount {n : Nat} (hlen : nodeHdrSize ≤ b.length) (hn : n < 2 ^ 32) :
    nItems (putLE 4 0x60 n b) = n :=
  leAt_putLE_self (le_trans (by decide) hlen) hn

/-- A rewritten buffer holds the packed records. -/
theorem written {recs : List (Key × Bytes)} (hfit : LeafFits b.length recs) (hsize : b.length < 2 ^ 32)
    (hk : ∀ r ∈ recs, FitsDisk r.1) :
    ∃ b', writeRecs 0 b.length recs b = .ok b' ∧ b'.length = b.length ∧
      (∀ p < nodeHdrSize, b'[p]? = b[p]?) ∧
      ∀ {i it}, (packFrom b.length recs)[i]? = some it → Stores b' i it := by
  rw [LeafFits, packedSize, ← payload] at hfit
  obtain ⟨b', hrun, hlen, hframe, hst⟩ := writeRecs_ok recs 0 b.length b hk hsize le_rfl
    (by rw [Nat.zero_add, descOff]; omega)
  refine ⟨b', hrun, hlen, fun p hp => hframe p (Or.inl ?_), fun hi => ?_⟩
  · rw [descOff, Nat.zero_mul]
    exact hp
  · have h := hst hi
    rwa [Nat.zero_add] at h

theorem descOff_le_of_fits {ns : Nat} {recs : List (Key × Bytes)} (h : LeafFits ns recs) :
    descOff recs.length ≤ ns := by
  rw [LeafFits, packedSize] at h
  rw [descOff]
  omega

theorem dataAreaEnd_map (ns : Nat) (l : List LeafItem) :
    dataAreaEnd ns (l.map fun it => ⟨it.k, it.dataOff, it.data.length⟩) = Btrfs.dataAreaEnd ns l := by
  rw [dataAreaEnd, Btrfs.dataAreaEnd, List.foldl_map]

theorem leafInsertItem_sim (h : LeafOf b l) (hk : FitsDisk k) (data : Bytes) :
    Agrees b.length (leafInsertItem b k data) (Btrfs.leafInsertItem b.length l k data) := by
  have hpay := h.data.payload_le
  have hhdr : nodeHdrSize ≤ b.length := le_trans (Nat.le_add_right _ _) h.fits
  simp only [leafInsertItem, Btrfs.leafInsertItem, h.parseNodeHeader, h.readDescs, Checked.ok_bind,
    dataAreaEnd_map]
  split_ifs with hfull
  · rfl
  · have hpos : insertPos (l.map LeafItem.kv) k ≤ (l.map LeafItem.kv).length := List.findIdx_le_length
    have hlen := length_insertIdx_insertPos (l.map LeafItem.kv) k (k, data)
    have hnew : payload ((l.map LeafItem.kv).insertIdx (insertPos (l.map LeafItem.kv) k) (k, data)) =
        data.length + payload (l.map LeafItem.kv) := payload_insertIdx (k, data) hpos
    have hkeys : ∀ r ∈ (l.map LeafItem.kv).insertIdx (insertPos (l.map LeafItem.kv) k) (k, data),
        FitsDisk r.1 := by
      intro r hr
      rcases List.mem_cons.mp ((List.perm_insertIdx (k, data) _ hpos).mem_iff.mp hr) with rfl | hr
      · exact hk
      · exact h.fitsDisk r hr
    simp only [h.snapshots, Checked.ok_bind]
    generalize (l.map LeafItem.kv).insertIdx (insertPos (l.map LeafItem.kv) k) (k, data) = recs at *
    rw [List.length_map] at hlen
    have hfit : LeafFits b.length recs := by
      rw [LeafFits, packedSize, ← payload, hlen, hnew, Nat.add_mul]
      omega
    obtain ⟨b', hrun, hlen', -, hst⟩ := written hfit h.size hkeys
    have hhdr' : nodeHdrSize ≤ b'.length := hlen' ▸ hhdr
    have hroom : 0x60 + 4 ≤ b'.length := le_trans (by decide) hhdr'
    have hcount : l.length + 1 < 2 ^ 32 := by
      have h1 := descOff_le_of_fits hfit
      have h2 := h.size
      rw [descOff, hlen, itemSize] at h1
      omega
    have hlen'' : (putLE 4 0x60 (l.length + 1) b').length = b.length := (length_putLE hroom).trans hlen'
    simp only [hrun, Checked.ok_bind, putField_of_le hroom]
    refine ⟨hlen'', ⟨?_, ?_, ?_, fun hi => (hst hi).putCount hhdr' _⟩, ?_⟩
    · rw [hlen'']
      exact h.size
    · rw [nItems_putCount hhdr' hcount, length_packFrom, hlen]
    · rw [hlen'', length_packFrom]
      exact descOff_le_of_fits hfit
    · rw [hlen'']
      exact dataApart_packFrom hfit

/-- The fields of the descriptor of an item. -/
theorem Stores.fields {i : Nat} {it : LeafItem} (h : Stores b i it) :
    leAt 4 (descOff i + 17) b = it.dataOff ∧ leAt 4 (descOff i + 21) b = it.data.length :=
  ⟨congrArg ItemDesc.dataOff h.desc, congrArg ItemDesc.dataSize h.desc⟩

theorem leafUpdateItemSameSize_sim {it : LeafItem} (h : LeafOf b l) (hit : l[idx]? = some it)
    (hdata : data.length = it.data.length) :
    ∃ b', leafUpdateItemSameSize b idx data = .ok b' ∧ b'.length = b.length ∧
      LeafOf b' (l.set idx { it with data := data }) := by
  have hidx : idx < l.length := (List.getElem?_eq_some_iff.mp hit).1
  have hst := h.stores hit
  have hin : nodeHdrSize + it.dataOff + data.length ≤ b.length := hdata ▸ hst.within
  have hbehind : descOff l.length ≤ nodeHdrSize + it.dataOff :=
    Nat.add_le_add_left (h.data.inside it (List.mem_of_getElem? hit)).1 _
  have hlen : (putAt (nodeHdrSize + it.dataOff) data b).length = b.length := length_putAt hin
  have hlow : ∀ p, p < descOff l.length → (putAt (nodeHdrSize + it.dataOff) data b)[p]? = b[p]? := by
    intro p hp
    rw [getElem?_putAt hin, if_neg (by omega)]
  refine ⟨_, ?_, hlen, ?_⟩
  · have hdesc := h.descOff_le hidx
    simp only [itemSize] at hdesc
    rw [leafUpdateItemSameSize, fieldAt_of_le (by omega), Checked.ok_bind, fieldAt_of_le (by omega),
      Checked.ok_bind, hst.fields.1, hst.fields.2, if_neg (by omega), copyAt_of_le hin]
  · refine ⟨⟨hlen.symm ▸ h.size, ?_, ?_, ?_⟩, ?_, ?_⟩
    · have hcount : nItems (putAt (nodeHdrSize + it.dataOff) data b) = nItems b := by
        refine leAt_congr fun p hp => hlow _ (lt_of_lt_of_le ?_ (Nat.le_add_right nodeHdrSize _))
        rw [nodeHdrSize]
        omega
      rw [hcount, List.length_set]
      exact h.count
    · rw [hlen, List.length_set]
      exact h.fits
    · intro j jt hj
      rw [List.getElem?_set] at hj
      split_ifs at hj with heq
      · -- the item itself: its descriptor stays, and the new data is read back
        subst heq
        simp only [Option.some.injEq] at hj
        subst hj
        refine ⟨?_, take_drop_putAt_self (by dsimp only; omega), ?_⟩
        · rw [itemDesc_congr (b := b) (i := idx) fun p hp => hlow _ ?_, hst.desc, hdata]
          exact lt_of_lt_of_le (Nat.add_lt_add_left hp _) (descOff_succ idx ▸ descOff_mono hidx)
        · rw [hlen]
          exact hin
      · -- another item: its data does not meet the bytes written
        have hjl : j < l.length := (List.getElem?_eq_some_iff.mp hj).1
        have hdisj := Set.disjoint_left.mp (h.data.disjoint hj hit (Ne.symm heq))
        refine (h.stores hj).congr hlen (fun p _ hp => hlow p (lt_of_lt_of_le hp (descOff_mono hjl)))
          fun p hlo hhi => ?_
        have hout := @hdisj (p - nodeHdrSize)
        simp only [dataSpan, Span.mem_bytes] at hout
        rw [getElem?_putAt hin, if_neg (by omega)]
    · intro jt hjt
      rw [List.length_set, hlen]
      rcases List.mem_or_eq_of_mem_set hjt with hjt | rfl
      · exact h.data.inside jt hjt
      · exact ⟨(h.data.inside it (List.mem_of_getElem? hit)).1, hin⟩
    · have hspan : (l.set idx { it with data := data }).map dataSpan = l.map dataSpan := by
        have hold : (l.map dataSpan)[idx]? = some (dataSpan { it with data := data }) := by
          rw [List.getElem?_map, hit]
          simp only [Option.map_some, dataSpan, hdata]
        obtain ⟨hlt, hget⟩ := List.getElem?_eq_some_iff.mp hold
        rw [List.map_set, ← hget, List.set_getElem_self]
      rw [hspan]
      exact h.data.apart

theorem leafReplaceItemData_sim (h : LeafOf b l) (hidx : idx < l.length) (newData : Bytes) :
    Agrees b.length (leafReplaceItemData b idx newData)
      (Btrfs.leafReplaceItemData b.length l idx newData) := by
  have hhdr : nodeHdrSize ≤ b.length := le_trans (Nat.le_add_right _ _) h.fits
  have hit : l[idx]? = some l[idx] := List.getElem?_eq_getElem hidx
  have hst := h.stores hit
  have hdesc := h.descOff_le hidx
  simp only [itemSize] at hdesc
  generalize l[idx] = it at *
  have hsizes : ((l.map fun it => (⟨it.k, it.dataOff, it.data.length⟩ : ItemDesc)).map ItemDesc.dataSize).sum =
      (l.map fun it => it.data.length).sum := by rw [List.map_map]; rfl
  simp only [leafReplaceItemData, Btrfs.leafReplaceItemData, hit, h.parseNodeHeader, Checked.ok_bind,
    fieldAt_of_le (show descOff idx + 21 + 4 ≤ b.length by omega), hst.fields.2]
  split_ifs with hsame hfull
  · obtain ⟨b', hrun, hlen, hleaf⟩ := leafUpdateItemSameSize_sim h hit
      (show newData.length = it.data.length by omega)
    rw [hrun]
    exact ⟨hlen, hleaf⟩
  all_goals simp only [h.readDescs, Checked.ok_bind, hsizes]
  · rw [if_pos hfull]
    rfl
  · have hsnap : (l.map LeafItem.kv)[idx]? = some it.kv := by rw [List.getElem?_map, hit]; rfl
    have hset : payload ((l.map LeafItem.kv).set idx (it.k, newData)) + it.data.length =
        payload (l.map LeafItem.kv) + newData.length := payload_set hsnap (it.k, newData)
    have hkeys : ∀ r ∈ (l.map LeafItem.kv).set idx (it.k, newData), FitsDisk r.1 := by
      intro r hr
      rcases List.mem_or_eq_of_mem_set hr with hr | rfl
      · exact h.fitsDisk r hr
      · exact h.fitsDisk it.kv (List.mem_of_getElem? hsnap)
    have hpay : payload (l.map LeafItem.kv) = (l.map fun it => it.data.length).sum := by
      rw [payload, List.map_map]; rfl
    rw [if_neg hfull, h.snapshots, Checked.ok_bind, hsnap]
    simp only [LeafItem.kv_fst]
    -- everything behind the header is cleared and written again
    generalize hb₁ : putAt nodeHdrSize (List.replicate (b.length - nodeHdrSize) 0) b = b₁
    have hlen₁ : b₁.length = b.length := by
      rw [← hb₁, length_putAt]
      rw [List.length_replicate]
      omega
    have hroom : 0x60 + 4 ≤ b₁.length := by rw [hlen₁]; exact le_trans (by decide) hhdr
    have hlen₂ : (putLE 4 0x60 l.length b₁).length = b.length := (length_putLE hroom).trans hlen₁
    have hcount : l.length < 2 ^ 32 := by
      have h1 := h.fits
      have h2 := h.size
      rw [descOff, itemSize] at h1
      omega
    have hnum : nItems (putLE 4 0x60 l.length b₁) = l.length := nItems_putCount (hlen₁ ▸ hhdr) hcount
    simp only [clearRange_of_le hhdr le_rfl, Checked.ok_bind, hb₁, putField_of_le hroom]
    generalize putLE 4 0x60 l.length b₁ = b₂ at hlen₂ hnum ⊢
    have hfit : LeafFits b₂.length ((l.map LeafItem.kv).set idx (it.k, newData)) := by
      rw [LeafFits, packedSize, ← payload, List.length_set, List.length_map, hlen₂]
      omega
    obtain ⟨b', hrun, hlen', hframe, hst'⟩ := written hfit (hlen₂ ▸ h.size) hkeys
    rw [hrun]
    rw [hlen₂] at hlen' hst'
    refine ⟨hlen', ⟨hlen' ▸ h.size, ?_, ?_, hst'⟩, ?_⟩
    · rw [length_packFrom, List.length_set, List.length_map, ← hnum]
      refine leAt_congr fun p hp => hframe _ ?_
      rw [nodeHdrSize]
      omega
    · rw [hlen', length_packFrom, ← hlen₂]
      exact descOff_le_of_fits hfit
    · rw [hlen', ← hlen₂]
      exact dataApart_packFrom hfit

end insert

/-! ## 7. Deletion -/

section delete

variable {b b' : Bytes} {l : List LeafItem} {idx n : Nat} {o s : Nat}

/-- An item that begins below another one with data also ends below it. -/
theorem stop_le_of_lt {it del : LeafItem} (hd : Disjoint (dataSpan it).bytes (dataSpan del).bytes)
    (hlt : it.dataOff < del.dataOff) (hdel : 0 < del.data.length) :
    it.dataOff + it.data.length ≤ del.dataOff := by
  have hout := Set.disjoint_left.mp hd
  have h := @hout del.dataOff
  simp only [dataSpan, Span.mem_bytes] at h
  omega

/-- An item with data that does not begin below another one begins at its end or behind it. -/
theorem stop_le_of_ge {it del : LeafItem} (hd : Disjoint (dataSpan it).bytes (dataSpan del).bytes)
    (hge : del.dataOff ≤ it.dataOff) (hit : 0 < it.data.length) :
    del.dataOff + del.data.length ≤ it.dataOff := by
  have hout := Set.disjoint_left.mp hd
  have h := @hout it.dataOff
  simp only [dataSpan, Span.mem_bytes] at h
  omega

/-- What happens to an item when another one is deleted. -/
def shiftItem (del it : LeafItem) : LeafItem :=
  if it.dataOff < del.dataOff then { it with dataOff := it.dataOff + del.data.length } else it

@[simp] theorem shiftItem_k (del it : LeafItem) : (shiftItem del it).k = it.k := by
  rw [shiftItem]
  split_ifs <;> rfl

@[simp] theorem shiftItem_data (del it : LeafItem) : (shiftItem del it).data = it.data := by
  rw [shiftItem]
  split_ifs <;> rfl

theorem shiftItem_dataOff (del it : LeafItem) : (shiftItem del it).dataOff =
    if it.dataOff < del.dataOff then it.dataOff + del.data.length else it.dataOff := by
  rw [shiftItem]
  split_ifs <;> rfl

/-- Deletion in the list model, at a split of the list. -/
theorem leafDeleteItem_split {del : LeafItem} {before after : List LeafItem} :
    Btrfs.leafDeleteItem (before ++ del :: after) before.length = (before ++ after).map (shiftItem del) := by
  rw [Btrfs.leafDeleteItem, List.getElem?_append_right le_rfl, Nat.sub_self, List.getElem?_cons_zero,
    List.eraseIdx_append_of_length_le le_rfl, Nat.sub_self, List.eraseIdx_cons_zero]
  rfl

/-- Two items that share no byte with each other and with the deleted one share none afterwards. -/
theorem disjoint_shiftItem {del a c : LeafItem} (hac : Disjoint (dataSpan a).bytes (dataSpan c).bytes)
    (ha : Disjoint (dataSpan a).bytes (dataSpan del).bytes)
    (hc : Disjoint (dataSpan c).bytes (dataSpan del).bytes) :
    Disjoint (dataSpan (shiftItem del a)).bytes (dataSpan (shiftItem del c)).bytes := by
  refine Set.disjoint_left.mpr fun p hp hp' => ?_
  have hout := Set.disjoint_left.mp hac
  have hboth := @hout p
  have hshift := @hout (p - del.data.length)
  simp only [dataSpan, Span.mem_bytes, shiftItem_data, shiftItem_dataOff] at hp hp' hboth hshift
  split_ifs at hp hp' with h1 h2 h2
  · omega
  · have := stop_le_of_lt ha h1
    have := stop_le_of_ge hc (by omega) (by omega)
    omega
  · have := stop_le_of_lt hc h2
    have := stop_le_of_ge ha (by omega) (by omega)
    omega
  · omega

theorem DataApart.delete {ns : Nat} {del : LeafItem} {before after : List LeafItem}
    (h : DataApart ns (before ++ del :: after)) : DataApart ns ((before ++ after).map (shiftItem del)) := by
  have hperm : (before ++ del :: after).Perm (del :: (before ++ after)) := List.perm_middle
  have hsc : Scattered ((del :: (before ++ after)).map dataSpan) := h.apart.perm (hperm.map _)
  rw [List.map_cons, scattered_cons] at hsc
  obtain ⟨hdel, hrest⟩ := hsc
  have hclear : ∀ it ∈ before ++ after, Disjoint (dataSpan it).bytes (dataSpan del).bytes := fun it hit =>
    (hdel.mono_right (bytes_subset_bytesOf (List.mem_map_of_mem hit))).symm
  have hmem : ∀ it ∈ before ++ after, it ∈ before ++ del :: after := fun it hit =>
    hperm.mem_iff.mpr (List.mem_cons_of_mem _ hit)
  have hdelin := (h.inside del (by simp)).2
  refine ⟨?_, ?_⟩
  · intro it' hit'
    obtain ⟨it, hit, rfl⟩ := List.mem_map.mp hit'
    obtain ⟨hlo, hhi⟩ := h.inside it (hmem it hit)
    have hlen : (before ++ del :: after).length = (before ++ after).length + 1 := hperm.length_eq
    rw [hlen, Nat.add_mul] at hlo
    rw [List.length_map, shiftItem_dataOff, shiftItem_data]
    split_ifs with hlt
    · have := stop_le_of_lt (hclear it hit) hlt
      omega
    · omega
  · rw [Scattered, List.map_map, List.pairwise_map]
    refine (List.pairwise_map.mp hrest).imp_of_mem fun ha hc hac => ?_
    exact disjoint_shiftItem hac (hclear _ ha) (hclear _ hc)

/-- The lowest offset is one of them. -/
theorem minDataOff_spec (doffs : List Nat) : ∀ start, minDataOff start doffs ≤ start ∧
    (∀ x ∈ doffs, minDataOff start doffs ≤ x) ∧ (minDataOff start doffs = start ∨ minDataOff start doffs ∈ doffs) := by
  induction doffs with
  | nil => exact fun start => ⟨le_rfl, nofun, Or.inl rfl⟩
  | cons x doffs ih =>
    intro start
    rw [minDataOff, List.foldl_cons, ← minDataOff]
    split_ifs with hlt
    · obtain ⟨hle, hall, hmem⟩ := ih x
      refine ⟨by omega, List.forall_mem_cons.mpr ⟨hle, hall⟩, Or.inr ?_⟩
      rw [List.mem_cons]
      exact hmem
    · obtain ⟨hle, hall, hmem⟩ := ih start
      refine ⟨hle, List.forall_mem_cons.mpr ⟨by omega, hall⟩, hmem.imp_right (List.mem_cons_of_mem _)⟩

/-- The bytes below the gap move up by its size; what lies behind it and before the data stays. -/
theorem closeGap_ok {low : Nat} (hlow : low ≤ o) (hin : nodeHdrSize + o + s ≤ b.length) :
    ∃ b', closeGap low o s b = .ok b' ∧ b'.length = b.length ∧
      (∀ p, p < nodeHdrSize + low ∨ nodeHdrSize + o + s ≤ p → b'[p]? = b[p]?) ∧
      ∀ q, low ≤ q → q < o → b'[nodeHdrSize + q + s]? = b[nodeHdrSize + q]? := by
  generalize hmoved : (b.drop (nodeHdrSize + low)).take (o - low) = moved
  have hmlen : moved.length = o - low := by
    rw [← hmoved, List.length_take, List.length_drop]
    omega
  have hmget : ∀ q, low ≤ q → q < o → moved[q - low]? = b[nodeHdrSize + q]? := by
    intro q hlo hhi
    rw [← hmoved, List.getElem?_take, if_pos (by omega), List.getElem?_drop]
    congr 1
    omega
  have hfit : nodeHdrSize + low + s + moved.length ≤ b.length := by omega
  have hlen₁ : (putAt (nodeHdrSize + low + s) moved b).length = b.length := length_putAt hfit
  have hzero : nodeHdrSize + low + (List.replicate s (0 : UInt8)).length ≤
      (putAt (nodeHdrSize + low + s) moved b).length := by
    rw [List.length_replicate]
    omega
  refine ⟨putAt (nodeHdrSize + low) (List.replicate s 0) (putAt (nodeHdrSize + low + s) moved b), ?_,
    (length_putAt hzero).trans hlen₁, ?_, ?_⟩
  · have hwidth : nodeHdrSize + o - (nodeHdrSize + low) = o - low := by omega
    have hclear : (clearRange (nodeHdrSize + low) (nodeHdrSize + low + s)
        (putAt (nodeHdrSize + low + s) moved b) : Go Bytes) =
        .ok (putAt (nodeHdrSize + low) (List.replicate s 0) (putAt (nodeHdrSize + low + s) moved b)) := by
      rw [clearRange_of_le (by omega) (by omega), Nat.add_sub_cancel_left]
    simp only [closeGap]
    split_ifs with hlt
    · rw [slice_of_le (by omega) (by omega), Checked.ok_bind, slice_of_le (by omega) (by omega),
        Checked.ok_bind, hwidth, hmoved, copyAt_of_le hfit, Checked.ok_bind, hclear]
    · have hnil : moved = [] := List.length_eq_zero_iff.mp (by omega)
      rw [hnil, putAt_nil] at hclear
      rw [hnil, putAt_nil]
      exact hclear
  · intro p hp
    rw [getElem?_putAt hzero, List.length_replicate, if_neg (by omega), getElem?_putAt hfit, if_neg (by omega)]
  · intro q hlo hhi
    rw [getElem?_putAt hzero, List.length_replicate, if_neg (by omega), getElem?_putAt hfit, if_pos (by omega),
      ← hmget q hlo hhi]
    congr 1
    omega

/-- The data of an item that is not deleted is found at its new offset. -/
theorem closeGap_data {del it : LeafItem} {low : Nat}
    (hframe : ∀ p, p < nodeHdrSize + low ∨ nodeHdrSize + del.dataOff + del.data.length ≤ p → b'[p]? = b[p]?)
    (hmove : ∀ q, low ≤ q → q < del.dataOff → b'[nodeHdrSize + q + del.data.length]? = b[nodeHdrSize + q]?)
    (hd : Disjoint (dataSpan it).bytes (dataSpan del).bytes) (hlow : low ≤ it.dataOff) :
    ∀ q < it.data.length,
      b'[nodeHdrSize + (shiftItem del it).dataOff + q]? = b[nodeHdrSize + it.dataOff + q]? := by
  intro q hq
  rw [shiftItem_dataOff]
  split_ifs with hlt
  · have hstop := stop_le_of_lt hd hlt
    rcases Nat.eq_zero_or_pos del.data.length with hzero | hpos
    · -- nothing was freed: bytes on both sides of the offset stay
      rw [hzero, Nat.add_zero]
      rcases Nat.lt_or_ge (it.dataOff + q) del.dataOff with hlo | hhi
      · have h := hmove (it.dataOff + q) (by omega) hlo
        rwa [hzero, Nat.add_zero, ← Nat.add_assoc] at h
      · exact hframe _ (Or.inr (by omega))
    · have h := hmove (it.dataOff + q) (by omega) (by have := hstop hpos; omega)
      rw [← Nat.add_assoc] at h
      rw [← h]
      congr 1
      omega
  · have hstop := stop_le_of_ge hd (by omega) (by omega)
    exact hframe _ (Or.inr (by omega))

/-- One descriptor is re-based; nothing else changes. -/
theorem shiftDesc_ok {i : Nat} (hi : descOff i + itemSize ≤ b.length)
    (hsmall : leAt 4 (descOff i + 17) b < o → leAt 4 (descOff i + 17) b + s < 256 ^ 4) :
    ∃ b', shiftDesc o s b i = .ok b' ∧ b'.length = b.length ∧
      (∀ p, p < descOff i ∨ descOff (i + 1) ≤ p → b'[p]? = b[p]?) ∧
      itemDesc b' i = ⟨(itemDesc b i).k, if (itemDesc b i).dataOff < o then (itemDesc b i).dataOff + s
        else (itemDesc b i).dataOff, (itemDesc b i).dataSize⟩ := by
  simp only [itemSize] at hi
  have hoff : (itemDesc b i).dataOff = leAt 4 (descOff i + 17) b := rfl
  rw [shiftDesc, fieldAt_of_le (by omega), Checked.ok_bind, hoff]
  by_cases hlt : leAt 4 (descOff i + 17) b < o
  · rw [if_pos hlt, if_pos hlt]
    have hv := hsmall hlt
    generalize leAt 4 (descOff i + 17) b + s = v at hv ⊢
    have hput : descOff i + 17 + (leBytes 4 v).length ≤ b.length := by rw [length_leBytes]; omega
    refine ⟨_, putField_of_le (by omega), length_putAt hput, ?_, ?_⟩
    · intro p hp
      rw [descOff_succ, itemSize] at hp
      rw [putLE, getElem?_putAt hput, if_neg (by rw [length_leBytes]; omega)]
    · have hother : ∀ w off', off' + w ≤ descOff i + 17 ∨ descOff i + 17 + 4 ≤ off' →
          leAt w off' (putLE 4 (descOff i + 17) v b) = leAt w off' b := by
        intro w off' hdisj
        rw [putLE, leAt_putAt_of_disjoint hput (by rw [length_leBytes]; exact hdisj)]
      have hself : leAt 4 (descOff i + 17) (putLE 4 (descOff i + 17) v b) = v :=
        leAt_putLE_self (by omega) hv
      simp only [itemDesc, keyAt, hself]
      rw [hother 8 (descOff i) (by omega), hother 1 (descOff i + 8) (by omega),
        hother 8 (descOff i + 9) (by omega), hother 4 (descOff i + 21) (by omega)]
  · rw [if_neg hlt, if_neg hlt]
    exact ⟨b, rfl, rfl, fun _ _ => rfl, rfl⟩

/-- The loop over the other items. -/
theorem shiftDescs_ok : ∀ (js : List Nat) (b : Bytes), js.Nodup → (∀ j ∈ js, j < n) → descOff n ≤ b.length →
    (∀ j ∈ js, (itemDesc b j).dataOff < o → (itemDesc b j).dataOff + s < 256 ^ 4) →
    ∃ b', js.foldlM (shiftDesc o s) b = .ok b' ∧ b'.length = b.length ∧
      (∀ p, p < nodeHdrSize ∨ descOff n ≤ p → b'[p]? = b[p]?) ∧
      (∀ j ∈ js, itemDesc b' j = ⟨(itemDesc b j).k, if (itemDesc b j).dataOff < o then
        (itemDesc b j).dataOff + s else (itemDesc b j).dataOff, (itemDesc b j).dataSize⟩) ∧
      ∀ j, j ∉ js → itemDesc b' j = itemDesc b j := by
  intro js
  induction js with
  | nil => exact fun b _ _ _ _ => ⟨b, rfl, rfl, fun _ _ => rfl, nofun, fun _ _ => rfl⟩
  | cons i js ih =>
    intro b hnodup hbound hlen hsmall
    obtain ⟨hi, hnodup⟩ := List.nodup_cons.mp hnodup
    have hin : descOff (i + 1) ≤ descOff n := descOff_mono (hbound i List.mem_cons_self)
    obtain ⟨b₁, hrun₁, hlen₁, hframe₁, hdesc₁⟩ := shiftDesc_ok (b := b) (i := i) (o := o) (s := s)
      (by rw [← descOff_succ]; omega) (hsmall i List.mem_cons_self)
    -- the other descriptors are apart from this one
    have hother₁ : ∀ j, j ≠ i → itemDesc b₁ j = itemDesc b j := by
      intro j hj
      refine itemDesc_congr fun p hp => hframe₁ _ ?_
      rcases Nat.lt_or_gt_of_ne hj with hlt | hgt
      · have := descOff_mono (show j + 1 ≤ i by omega)
        rw [descOff_succ] at this
        omega
      · have := descOff_mono (show i + 1 ≤ j by omega)
        omega
    have hne : ∀ j ∈ js, j ≠ i := fun j hj heq => hi (heq ▸ hj)
    obtain ⟨b', hrun, hlen', hframe, hdesc, hother⟩ := ih b₁ hnodup
      (fun j hj => hbound j (List.mem_cons_of_mem _ hj)) (by omega) (fun j hj => by
        rw [hother₁ j (hne j hj)]
        exact hsmall j (List.mem_cons_of_mem _ hj))
    refine ⟨b', ?_, by omega, ?_, ?_, ?_⟩
    · rw [List.foldlM_cons, hrun₁, Checked.ok_bind, hrun]
    · intro p hp
      have hhdr : nodeHdrSize ≤ descOff i := Nat.le_add_right _ _
      rw [hframe p hp, hframe₁ p (by omega)]
    · intro j hj
      rcases List.mem_cons.mp hj with rfl | hj
      · rw [hother j hi, hdesc₁]
      · rw [hdesc j hj, hother₁ j (hne j hj)]
    · intro j hj
      rw [List.mem_cons, not_or] at hj
      rw [hother j hj.2, hother₁ j hj.1]

/-- Close the gap in the array of descriptors. -/
theorem dropDesc_ok (hidx : idx < n) (hn : n < 2 ^ 32) (hlen : descOff n ≤ b.length) :
    ∃ b', (do
        let later ← slice b (descOff (idx + 1)) (descOff n)
        let b ← copyAt (descOff idx) later b
        let b ← clearRange (descOff (n - 1)) (descOff n) b
        putField 4 0x60 (n - 1) b : Go Bytes) = .ok b' ∧ b'.length = b.length ∧ nItems b' = n - 1 ∧
      (∀ p, descOff n ≤ p → b'[p]? = b[p]?) ∧
      ∀ j < n - 1, itemDesc b' j = itemDesc b (if j < idx then j else j + 1) := by
  have hle : descOff (idx + 1) ≤ descOff n := descOff_mono hidx
  have hlast : descOff n = descOff (n - 1) + itemSize := by
    rw [← descOff_succ]
    congr 1
    omega
  have hhdr : nodeHdrSize ≤ descOff idx := Nat.le_add_right _ _
  generalize hlater : (b.drop (descOff (idx + 1))).take (descOff n - descOff (idx + 1)) = later
  have hllen : later.length = descOff n - descOff (idx + 1) := by
    rw [← hlater, List.length_take, List.length_drop]
    omega
  have hsucc := descOff_succ idx
  have hput₁ : descOff idx + later.length ≤ b.length := by omega
  generalize hb₁ : putAt (descOff idx) later b = b₁
  have hlen₁ : b₁.length = b.length := hb₁ ▸ length_putAt hput₁
  have hput₂ : descOff (n - 1) + (List.replicate (descOff n - descOff (n - 1)) (0 : UInt8)).length ≤ b₁.length := by
    rw [List.length_replicate]
    omega
  generalize hb₂ : putAt (descOff (n - 1)) (List.replicate (descOff n - descOff (n - 1)) 0) b₁ = b₂
  have hlen₂ : b₂.length = b.length := by rw [← hb₂, length_putAt hput₂, hlen₁]
  have hput₃ : 0x60 + (leBytes 4 (n - 1)).length ≤ b₂.length := by
    rw [length_leBytes, hlen₂]
    exact le_trans (by decide) (hhdr.trans (by omega))
  -- what the three writes leave at a place
  have hget : ∀ p, nodeHdrSize ≤ p → p < descOff (n - 1) ∨ descOff n ≤ p →
      (putLE 4 0x60 (n - 1) b₂)[p]? =
        if descOff idx ≤ p ∧ p < descOff n then b[p + itemSize]? else b[p]? := by
    intro p hp hout
    rw [putLE, getElem?_putAt hput₃, if_neg (by rw [length_leBytes]; simp only [nodeHdrSize] at hp; omega), ← hb₂,
      getElem?_putAt hput₂, if_neg (by rw [List.length_replicate]; omega), ← hb₁, getElem?_putAt hput₁]
    have hiff : (descOff idx ≤ p ∧ p < descOff idx + later.length) ↔ (descOff idx ≤ p ∧ p < descOff n) := by omega
    simp only [hiff]
    split_ifs with hcond
    · rw [← hlater, List.getElem?_take, if_pos (by omega), List.getElem?_drop]
      congr 1
      omega
    · rfl
  refine ⟨putLE 4 0x60 (n - 1) b₂, ?_, ?_, ?_, ?_, ?_⟩
  · rw [slice_of_le hle hlen, Checked.ok_bind, hlater, copyAt_of_le hput₁, Checked.ok_bind, hb₁,
      clearRange_of_le (by omega) (by omega), Checked.ok_bind, hb₂]
    rw [length_leBytes] at hput₃
    exact putField_of_le hput₃
  · rw [putLE, length_putAt hput₃, hlen₂]
  · exact nItems_putCount (by omega) (by omega)
  · intro p hp
    rw [hget p (by omega) (Or.inr hp), if_neg (by omega)]
  · intro j hj
    refine itemDesc_congr fun p hp => ?_
    have hj1 : descOff (j + 1) ≤ descOff (n - 1) := descOff_mono hj
    rw [descOff_succ] at hj1
    have hhdr' : nodeHdrSize ≤ descOff j := Nat.le_add_right _ _
    rw [hget _ (by omega) (Or.inl (by omega))]
    split_ifs with hcond hlt hlt
    · have := descOff_mono (show j + 1 ≤ idx by omega)
      rw [descOff_succ] at this
      omega
    · rw [descOff_succ]
      congr 1
      omega
    · rfl
    · have := descOff_mono (show idx ≤ j by omega)
      omega

theorem leafDeleteItem_sim (h : LeafOf b l) (hidx : idx < l.length) :
    ∃ b', leafDeleteItem b idx = .ok b' ∧ b'.length = b.length ∧ LeafOf b' (Btrfs.leafDeleteItem l idx) := by
  obtain ⟨before, del, after, rfl, rfl⟩ : ∃ before del after, l = before ++ del :: after ∧ before.length = idx :=
    ⟨l.take idx, l[idx], l.drop (idx + 1), by simp, by rw [List.length_take]; omega⟩
  rw [leafDeleteItem_split]
  generalize hl : before ++ del :: after = l at *
  have hdelget : l[before.length]? = some del := by
    rw [← hl, List.getElem?_append_right le_rfl, Nat.sub_self, List.getElem?_cons_zero]
  have herase : before ++ after = l.eraseIdx before.length := by
    rw [← hl, List.eraseIdx_append_of_length_le le_rfl, Nat.sub_self, List.eraseIdx_cons_zero]
  have hdel := h.stores hdelget
  have hapart : DataApart b.length ((before ++ after).map (shiftItem del)) :=
    DataApart.delete (hl.symm ▸ h.data)
  have hsize := h.size
  have hdelin := hdel.within
  have hnlt : l.length < 2 ^ 32 := by
    have h1 := h.fits
    rw [descOff, itemSize] at h1
    omega
  -- the other items
  generalize hothers : (List.range l.length).filter (· ≠ before.length) = others
  have hmem : ∀ j, j ∈ others ↔ j < l.length ∧ j ≠ before.length := by
    intro j
    rw [← hothers, List.mem_filter, List.mem_range, decide_eq_true_eq]
  have hnodup : others.Nodup := hothers ▸ List.nodup_range.filter _
  have hget : ∀ j ∈ others, ∃ it, l[j]? = some it :=
    fun j hj => ⟨_, List.getElem?_eq_getElem ((hmem j).mp hj).1⟩
  generalize hdoffs : others.map (fun i => leAt 4 (descOff i + 17) b) = doffs
  have hread : others.mapM (fun i => (fieldAt 4 (descOff i + 17) b : Go Nat)) = .ok doffs := by
    rw [← hdoffs]
    refine mapM_eq_ok fun j hj => fieldAt_of_le ?_
    have hj' := h.descOff_le ((hmem j).mp hj).1
    rw [itemSize] at hj'
    omega
  obtain ⟨hlowdel, hlowall, hlowmem⟩ := minDataOff_spec doffs del.dataOff
  generalize hlow : minDataOff del.dataOff doffs = low at *
  have hlowitem : ∀ j it, j ∈ others → l[j]? = some it → low ≤ it.dataOff := by
    intro j it hj hit
    rw [← (h.stores hit).fields.1]
    exact hlowall _ (hdoffs ▸ List.mem_map_of_mem hj)
  have hbehind : descOff l.length ≤ nodeHdrSize + low := by
    refine Nat.add_le_add_left ?_ _
    rcases hlowmem with heq | hin
    · rw [heq]
      exact (h.data.inside del (List.mem_of_getElem? hdelget)).1
    · obtain ⟨j, hj, heq⟩ := List.mem_map.mp (hdoffs.symm ▸ hin)
      obtain ⟨it, hit⟩ := hget j hj
      rw [← heq, (h.stores hit).fields.1]
      exact (h.data.inside it (List.mem_of_getElem? hit)).1
  -- the three phases
  obtain ⟨b₁, hrun₁, hlen₁, hframe₁, hmove₁⟩ := closeGap_ok (s := del.data.length) hlowdel hdelin
  have hdesc₁ : ∀ j it, l[j]? = some it → itemDesc b₁ j = ⟨it.k, it.dataOff, it.data.length⟩ := by
    intro j it hit
    have hj := h.descOff_le (List.getElem?_eq_some_iff.mp hit).1
    rw [← (h.stores hit).desc]
    refine itemDesc_congr fun p hp => hframe₁ _ (Or.inl ?_)
    have := descOff_mono (Nat.succ_le_of_lt (List.getElem?_eq_some_iff.mp hit).1)
    rw [descOff_succ] at this
    omega
  obtain ⟨b₂, hrun₂, hlen₂, hframe₂, hdesc₂, -⟩ := shiftDescs_ok (n := l.length) (o := del.dataOff)
    (s := del.data.length) others b₁ hnodup (fun j hj => ((hmem j).mp hj).1) (hlen₁ ▸ h.fits) (by
      intro j _ hlt
      have : (256 : Nat) ^ 4 = 2 ^ 32 := by decide
      omega)
  obtain ⟨b₃, hrun₃, hlen₃, hcount₃, hframe₃, hdesc₃⟩ := dropDesc_ok hidx hnlt (b := b₂) (by
    rw [hlen₂, hlen₁]; exact h.fits)
  have hlen' : b₃.length = b.length := by omega
  have hnum : ((before ++ after).map (shiftItem del)).length = l.length - 1 := by
    rw [List.length_map, herase, List.length_eraseIdx_of_lt hidx]
  refine ⟨b₃, ?_, hlen', ⟨by omega, by rw [hcount₃, hnum], ?_, ?_⟩, hlen'.symm ▸ hapart⟩
  · have hidx' := h.descOff_le hidx
    rw [itemSize] at hidx'
    simp only [leafDeleteItem, h.parseNodeHeader, Checked.ok_bind,
      fieldAt_of_le (show descOff before.length + 17 + 4 ≤ b.length by omega),
      fieldAt_of_le (show descOff before.length + 21 + 4 ≤ b.length by omega), hdel.fields.1, hdel.fields.2,
      hothers, hread, hlow, hrun₁, hrun₂]
    exact hrun₃
  · rw [hlen', hnum]
    exact (descOff_mono (Nat.sub_le _ _)).trans h.fits
  · intro j it' hit'
    rw [List.getElem?_map, Option.map_eq_some_iff] at hit'
    obtain ⟨it, hit, rfl⟩ := hit'
    have hj : j < l.length - 1 := by
      have := (List.getElem?_eq_some_iff.mp hit).1
      rwa [herase, List.length_eraseIdx_of_lt hidx] at this
    -- the item was at `i`
    generalize hi : (if j < before.length then j else j + 1) = i
    have higet : l[i]? = some it := by
      rw [herase, List.getElem?_eraseIdx] at hit
      rw [← hi, ← hit]
      split_ifs <;> rfl
    have hiother : i ∈ others := (hmem i).mpr (by split_ifs at hi <;> omega)
    have hclear := h.data.disjoint higet hdelget ((hmem i).mp hiother).2
    have hin := hapart.inside _ (List.mem_map_of_mem (List.mem_of_getElem? hit))
    refine ⟨?_, ?_, ?_⟩
    · rw [hdesc₃ j hj, hi, hdesc₂ i hiother, hdesc₁ i it higet, shiftItem_k, shiftItem_data, shiftItem_dataOff]
    · have hdata := closeGap_data hframe₁ hmove₁ hclear (hlowitem i it hiother higet)
      have hoff : low ≤ (shiftItem del it).dataOff := by
        have := hlowitem i it hiother higet
        rw [shiftItem_dataOff]
        split_ifs <;> omega
      have hbytes : (b₃.drop (nodeHdrSize + (shiftItem del it).dataOff)).take it.data.length =
          (b.drop (nodeHdrSize + it.dataOff)).take it.data.length := by
        refine take_drop_congr fun q hq => ?_
        rw [hframe₃ _ (by omega), hframe₂ _ (Or.inr (by omega)), hdata q hq]
      rw [shiftItem_data, hbytes]
      exact (h.stores higet).data
    · rw [hlen']
      exact hin.2

end delete

end Btrfs.Raw
