/-
  Btrfs/Entries.lean
  ==================
  **What the payloads of inodes and directory entries read back as.**

  An INODE_ITEM is edited field by field; `decodeInodeItem` looks at the mode, the size
  and the link count only, so that most edits do not show.  A DIR_ITEM or DIR_INDEX the
  driver writes holds a single entry, and parsing finds that entry and no other.
-/
import Btrfs.FileOps

namespace Btrfs

open Lib

/-! ## 1. Inodes -/

section inode

variable {d : Bytes} (ino : Nat)

theorem decode_putLE_of_disjoint {w off v : Nat} (hlen : off + w ≤ d.length)
    (hmode : inodeOffMode + 4 ≤ off ∨ off + w ≤ inodeOffMode)
    (hsize : inodeOffSize + 8 ≤ off ∨ off + w ≤ inodeOffSize)
    (hnlink : inodeOffNLink + 4 ≤ off ∨ off + w ≤ inodeOffNLink) :
    decodeInodeItem ino (putLE w off v d) = decodeInodeItem ino d := by
  have hfield : ∀ {w' off' : Nat}, (off' + w' ≤ off ∨ off + w ≤ off') →
      leAt w' off' (putLE w off v d) = leAt w' off' d := by
    intro w' off' h
    exact leAt_putAt_of_disjoint (by rw [length_leBytes]; exact hlen) (by rw [length_leBytes]; exact h)
  rw [decodeInodeItem, decodeInodeItem, hfield hmode, hfield hsize, hfield hnlink]

theorem length_writeBtrfsTimespec {off : Nat} {t : Timespec} (h : off + 12 ≤ d.length) :
    (writeBtrfsTimespec off t d).length = d.length := by
  rw [writeBtrfsTimespec, length_putLE (by rw [length_putLE (by omega)]; omega),
    length_putLE (by omega)]

/-- Times do not show in the decoded part. -/
theorem decode_writeBtrfsTimespec {off : Nat} {t : Timespec} (hlo : inodeOffATime ≤ off)
    (h : off + 12 ≤ d.length) :
    decodeInodeItem ino (writeBtrfsTimespec off t d) = decodeInodeItem ino d := by
  simp only [inodeOffATime] at hlo
  rw [writeBtrfsTimespec, decode_putLE_of_disjoint, decode_putLE_of_disjoint]
  all_goals first
    | (rw [length_putLE (by omega)]; omega)
    | (simp only [inodeOffMode, inodeOffSize, inodeOffNLink]; omega)
    | omega

theorem length_bumpInodeTransIDSequence {generation : Nat} (h : inodeItemSize ≤ d.length) :
    (bumpInodeTransIDSequence generation d).length = d.length := by
  simp only [inodeItemSize] at h
  have hfirst : (putLE 8 inodeOffTransID generation d).length = d.length :=
    length_putLE (by simp only [inodeOffTransID]; omega)
  rw [bumpInodeTransIDSequence, length_putLE (by simp only [inodeOffSequence]; omega), hfirst]

theorem decode_bumpInodeTransIDSequence {generation : Nat} (h : inodeItemSize ≤ d.length) :
    decodeInodeItem ino (bumpInodeTransIDSequence generation d) = decodeInodeItem ino d := by
  simp only [inodeItemSize] at h
  have hfirst : (putLE 8 inodeOffTransID generation d).length = d.length :=
    length_putLE (by simp only [inodeOffTransID]; omega)
  rw [bumpInodeTransIDSequence, decode_putLE_of_disjoint, decode_putLE_of_disjoint]
  all_goals
    simp only [inodeOffSequence, inodeOffTransID, inodeOffMode, inodeOffSize, inodeOffNLink]
      at hfirst ⊢
    omega

theorem decode_putSize_mod {n : Nat} (h : inodeItemSize ≤ d.length) :
    decodeInodeItem ino (putLE 8 inodeOffSize n d) =
      { decodeInodeItem ino d with size := n % 2 ^ 64 } := by
  simp only [inodeItemSize] at h
  have hlen : inodeOffSize + (leBytes 8 n).length ≤ d.length := by
    rw [length_leBytes]
    simp only [inodeOffSize]
    omega
  have hsize : leAt 8 inodeOffSize (putLE 8 inodeOffSize n d) = n % 2 ^ 64 :=
    leAt_putLE_mod (by simp only [inodeOffSize]; omega)
  have hmode : leAt 4 inodeOffMode (putLE 8 inodeOffSize n d) = leAt 4 inodeOffMode d :=
    leAt_putAt_of_disjoint hlen (Or.inr (by rw [length_leBytes]; decide))
  have hnlink : leAt 4 inodeOffNLink (putLE 8 inodeOffSize n d) = leAt 4 inodeOffNLink d :=
    leAt_putAt_of_disjoint hlen (Or.inr (by rw [length_leBytes]; decide))
  simp only [decodeInodeItem, hsize, hmode, hnlink]

theorem decode_putSize {n : Nat} (h : inodeItemSize ≤ d.length) (hn : n < 2 ^ 64) :
    decodeInodeItem ino (putLE 8 inodeOffSize n d) = { decodeInodeItem ino d with size := n } := by
  rw [decode_putSize_mod ino h, Nat.mod_eq_of_lt hn]

theorem decode_putNBytes {n : Nat} (h : inodeItemSize ≤ d.length) :
    decodeInodeItem ino (putLE 8 inodeOffNBytes n d) = decodeInodeItem ino d := by
  simp only [inodeItemSize] at h
  refine decode_putLE_of_disjoint ino ?_ (Or.inr (by decide)) (Or.inl (by decide))
    (Or.inr (by decide))
  simp only [inodeOffNBytes]
  omega

theorem decode_putNLink_mod {n : Nat} (h : inodeItemSize ≤ d.length) :
    decodeInodeItem ino (putLE 4 inodeOffNLink n d) =
      { decodeInodeItem ino d with nlink := n % 2 ^ 32 } := by
  simp only [inodeItemSize] at h
  have hlen : inodeOffNLink + (leBytes 4 n).length ≤ d.length := by
    rw [length_leBytes]
    simp only [inodeOffNLink]
    omega
  have hnlink : leAt 4 inodeOffNLink (putLE 4 inodeOffNLink n d) = n % 2 ^ 32 :=
    leAt_putLE_mod (by simp only [inodeOffNLink]; omega)
  have hmode : leAt 4 inodeOffMode (putLE 4 inodeOffNLink n d) = leAt 4 inodeOffMode d :=
    leAt_putAt_of_disjoint hlen (Or.inr (by rw [length_leBytes]; decide))
  have hsize : leAt 8 inodeOffSize (putLE 4 inodeOffNLink n d) = leAt 8 inodeOffSize d :=
    leAt_putAt_of_disjoint hlen (Or.inl (by decide))
  simp only [decodeInodeItem, hnlink, hmode, hsize]

theorem decode_putNLink {n : Nat} (h : inodeItemSize ≤ d.length) (hn : n < 2 ^ 32) :
    decodeInodeItem ino (putLE 4 inodeOffNLink n d) =
      { decodeInodeItem ino d with nlink := n } := by
  rw [decode_putNLink_mod ino h, Nat.mod_eq_of_lt hn]

theorem decode_putMode {n : Nat} (h : inodeItemSize ≤ d.length) (hn : n < 2 ^ 32) :
    decodeInodeItem ino (putLE 4 inodeOffMode n d) =
      { decodeInodeItem ino d with mode := n % 2 ^ 16 } := by
  simp only [inodeItemSize] at h
  have hlen : inodeOffMode + (leBytes 4 n).length ≤ d.length := by
    rw [length_leBytes]
    simp only [inodeOffMode]
    omega
  have hmode : leAt 4 inodeOffMode (putLE 4 inodeOffMode n d) = n :=
    leAt_putLE_self (by simp only [inodeOffMode]; omega) hn
  have hnlink : leAt 4 inodeOffNLink (putLE 4 inodeOffMode n d) = leAt 4 inodeOffNLink d :=
    leAt_putAt_of_disjoint hlen (Or.inl (by decide))
  have hsize : leAt 8 inodeOffSize (putLE 4 inodeOffMode n d) = leAt 8 inodeOffSize d :=
    leAt_putAt_of_disjoint hlen (Or.inl (by decide))
  simp only [decodeInodeItem, hmode, hnlink, hsize]

/-- The payload is long enough for an INODE_ITEM. -/
def Whole (d : Bytes) : Prop := inodeItemSize ≤ d.length

namespace Whole

theorem put (h : Whole d) (w off v : Nat) (hle : off + w ≤ inodeItemSize) :
    Whole (putLE w off v d) := by
  rw [Whole, length_putLE (hle.trans h)]
  exact h

theorem times (h : Whole d) (off : Nat) (t : Timespec) (hle : off + 12 ≤ inodeItemSize) :
    Whole (writeBtrfsTimespec off t d) := by
  rw [Whole, length_writeBtrfsTimespec (hle.trans h)]
  exact h

theorem bump (h : Whole d) (generation : Nat) : Whole (bumpInodeTransIDSequence generation d) := by
  rw [Whole, length_bumpInodeTransIDSequence h]
  exact h

theorem encode (size mode generation nbytes nlink : Nat) (now : Timespec) :
    Whole (encodeInodeItem size mode generation nbytes nlink now) := by
  have hzeros : Whole (zeros inodeItemSize) := List.length_replicate.ge
  have hids := (hzeros.put 8 inodeOffGeneration generation (by decide)).put 8 inodeOffTransID
    generation (by decide)
  have hcounts := ((hids.put 8 inodeOffSize size (by decide)).put 8 inodeOffNBytes nbytes
    (by decide)).put 4 inodeOffNLink nlink (by decide)
  have hflags := (hcounts.put 4 inodeOffMode mode (by decide)).put 8 inodeOffFlags
    inodeFlagNoDataSum (by decide)
  exact (((hflags.times inodeOffATime now (by decide)).times inodeOffCTime now (by decide)).times
    inodeOffMTime now (by decide)).times inodeOffOTime now (by decide)

end Whole

/-- An INODE_ITEM payload with the value `n` in the field of `w` bytes at `off`. -/
structure InodeField (w off : Nat) (d : Bytes) (n : Nat) : Prop where
  whole : Whole d
  value : leAt w off d = n

namespace InodeField

variable {w off n : Nat}

theorem set (h : Whole d) (hle : off + w ≤ inodeItemSize) (hn : n < 256 ^ w) :
    InodeField w off (putLE w off n d) n :=
  ⟨h.put w off n hle, leAt_putLE_self (((Nat.le_add_right _ _).trans hle).trans h) hn⟩

/-- Another field is set. -/
theorem put (h : InodeField w off d n) (w' off' v : Nat) (hle : off' + w' ≤ inodeItemSize)
    (hout : off + w ≤ off' ∨ off' + w' ≤ off) : InodeField w off (putLE w' off' v d) n := by
  have hlen : off' + (leBytes w' v).length ≤ d.length := by
    rw [length_leBytes]
    exact hle.trans h.whole
  refine ⟨h.whole.put w' off' v hle, ?_⟩
  rw [putLE, leAt_putAt_of_disjoint hlen (by rwa [length_leBytes]), h.value]

theorem times (h : InodeField w off d n) (off' : Nat) (t : Timespec) (hle : off' + 12 ≤ inodeItemSize)
    (hout : off + w ≤ off') : InodeField w off (writeBtrfsTimespec off' t d) n :=
  (h.put 8 off' _ (by omega) (Or.inl hout)).put 4 (off' + 8) _ (by omega) (Or.inl (by omega))

theorem bump (h : InodeField w off d n) (generation : Nat) (htrans : inodeOffTransID + 8 ≤ off)
    (hseq : off + w ≤ inodeOffSequence) :
    InodeField w off (bumpInodeTransIDSequence generation d) n :=
  (h.put 8 inodeOffTransID _ (by decide) (Or.inr htrans)).put 8 inodeOffSequence _ (by decide)
    (Or.inl hseq)

end InodeField

/-- An INODE_ITEM payload of `len` bytes whose decoded part is `i`. -/
structure Decodes (d : Bytes) (len : Nat) (i : InodeItem) : Prop where
  length_eq : d.length = len
  length_ge : inodeItemSize ≤ len
  item : decodeInodeItem i.num d = i

namespace Decodes

variable {len : Nat} {i : InodeItem}

theorem ge (h : Decodes d len i) : inodeItemSize ≤ d.length := h.length_eq ▸ h.length_ge

theorem bounds (h : Decodes d len i) : 160 ≤ d.length := h.ge

theorem times (h : Decodes d len i) (off : Nat) (t : Timespec) (hlo : inodeOffATime ≤ off)
    (hhi : off + 12 ≤ inodeItemSize) : Decodes (writeBtrfsTimespec off t d) len i := by
  have hle : off + 12 ≤ d.length := hhi.trans h.ge
  exact ⟨(length_writeBtrfsTimespec hle).trans h.length_eq, h.length_ge,
    (decode_writeBtrfsTimespec _ hlo hle).trans h.item⟩

theorem bump (h : Decodes d len i) (generation : Nat) :
    Decodes (bumpInodeTransIDSequence generation d) len i :=
  ⟨(length_bumpInodeTransIDSequence h.ge).trans h.length_eq, h.length_ge,
    (decode_bumpInodeTransIDSequence _ h.ge).trans h.item⟩

/-- A field the decoder does not look at. -/
theorem putOther (h : Decodes d len i) (w off v : Nat) (hlen : off + w ≤ inodeItemSize)
    (hmode : inodeOffMode + 4 ≤ off ∨ off + w ≤ inodeOffMode)
    (hsize : inodeOffSize + 8 ≤ off ∨ off + w ≤ inodeOffSize)
    (hnlink : inodeOffNLink + 4 ≤ off ∨ off + w ≤ inodeOffNLink) :
    Decodes (putLE w off v d) len i :=
  ⟨(length_putLE (hlen.trans h.ge)).trans h.length_eq, h.length_ge,
    (decode_putLE_of_disjoint _ (hlen.trans h.ge) hmode hsize hnlink).trans h.item⟩

theorem putNBytes (h : Decodes d len i) (n : Nat) : Decodes (putLE 8 inodeOffNBytes n d) len i :=
  h.putOther 8 inodeOffNBytes n (by decide) (Or.inr (by decide)) (Or.inl (by decide)) (Or.inr (by decide))

theorem putSize (h : Decodes d len i) {n : Nat} (hn : n < 2 ^ 64) :
    Decodes (putLE 8 inodeOffSize n d) len { i with size := n } := by
  have hb := h.bounds
  refine ⟨(length_putLE (by simp only [inodeOffSize]; omega)).trans h.length_eq, h.length_ge, ?_⟩
  rw [decode_putSize _ h.ge hn, h.item]

theorem putNLink (h : Decodes d len i) {n : Nat} (hn : n < 2 ^ 32) :
    Decodes (putLE 4 inodeOffNLink n d) len { i with nlink := n } := by
  have hb := h.bounds
  refine ⟨(length_putLE (by simp only [inodeOffNLink]; omega)).trans h.length_eq, h.length_ge, ?_⟩
  rw [decode_putNLink _ h.ge hn, h.item]

theorem putMode (h : Decodes d len i) {n : Nat} (hn : n < 2 ^ 32) :
    Decodes (putLE 4 inodeOffMode n d) len { i with mode := n % 2 ^ 16 } := by
  have hb := h.bounds
  refine ⟨(length_putLE (by simp only [inodeOffMode]; omega)).trans h.length_eq, h.length_ge, ?_⟩
  rw [decode_putMode _ h.ge hn, h.item]

/-- A fresh INODE_ITEM. -/
theorem encode {size mode nlink : Nat} (generation nbytes : Nat) (now : Timespec)
    (hsize : size < 2 ^ 64) (hmode : mode < 2 ^ 16) (hnlink : nlink < 2 ^ 32) :
    Decodes (encodeInodeItem size mode generation nbytes nlink now) inodeItemSize
      ⟨ino, mode, size, nlink⟩ := by
  have hzeros : Decodes (zeros inodeItemSize) inodeItemSize ⟨ino, 0, 0, 0⟩ :=
    ⟨List.length_replicate, le_rfl, rfl⟩
  have hgen := hzeros.putOther 8 inodeOffGeneration generation (by decide) (Or.inr (by decide))
    (Or.inr (by decide)) (Or.inr (by decide))
  have htrans := hgen.putOther 8 inodeOffTransID generation (by decide) (Or.inr (by decide))
    (Or.inr (by decide)) (Or.inr (by decide))
  have hfields := ((htrans.putSize hsize).putNBytes nbytes).putNLink hnlink
  have hflags := (hfields.putMode (hmode.trans (by decide))).putOther 8 inodeOffFlags
    inodeFlagNoDataSum (by decide) (Or.inl (by decide)) (Or.inl (by decide)) (Or.inl (by decide))
  have htimes := (((hflags.times inodeOffATime now le_rfl (by decide)).times inodeOffCTime now
    (by decide) (by decide)).times inodeOffMTime now (by decide) (by decide)).times inodeOffOTime now
    (by decide) (by decide)
  simp only [Nat.mod_eq_of_lt hmode] at htimes
  exact htimes

/-- A fresh INODE_ITEM of a body of any length. -/
theorem encode_mod {mode nlink : Nat} (size generation nbytes : Nat) (now : Timespec)
    (hmode : mode < 2 ^ 16) (hnlink : nlink < 2 ^ 32) :
    Decodes (encodeInodeItem size mode generation nbytes nlink now) inodeItemSize
      ⟨ino, mode, size % 2 ^ 64, nlink⟩ := by
  have hsize : encodeInodeItem size mode generation nbytes nlink now =
      encodeInodeItem (size % 2 ^ 64) mode generation nbytes nlink now := by
    have hbytes : leBytes 8 (size % 2 ^ 64) = leBytes 8 size := leBytes_mod 8 size
    simp only [encodeInodeItem, putLE, hbytes]
  rw [hsize]
  exact encode ino generation nbytes now (Nat.mod_lt _ (by decide)) hmode hnlink

end Decodes

end inode

/-! ## 2. Directory entries -/

/-- The names an entry can hold. -/
def NameOk (name : Name) : Prop := name.length < 2 ^ 16

theorem length_encodeDirItem (objID typ ftype : Nat) (name : Name) :
    (encodeDirItem objID typ ftype name).length = dirItemHdrSize + name.length := by
  simp only [encodeDirItem, List.length_append, length_leBytes, zeros, List.length_replicate,
    dirItemHdrSize]

theorem drop_encodeDirItem (objID typ ftype : Nat) (name : Name) :
    (encodeDirItem objID typ ftype name).drop dirItemHdrSize = name := by
  rw [encodeDirItem]
  refine List.drop_left' ?_
  simp [length_leBytes, zeros, dirItemHdrSize]

section fields

variable {objID ftype : Nat} (typ : Nat) {name : Name}

theorem inode_encodeDirItem (h : objID < 2 ^ 64) :
    leAt 8 0 (encodeDirItem objID typ ftype name) = objID :=
  leAt_of_append (a := []) (by simp only [encodeDirItem, List.append_assoc]; rfl) rfl h

theorem nameLen_encodeDirItem (h : NameOk name) :
    leAt 2 0x1B (encodeDirItem objID typ ftype name) = name.length := by
  refine leAt_of_append (a := leBytes 8 objID ++ leBytes 1 typ ++ zeros 18)
    (by simp only [encodeDirItem, List.append_assoc]; rfl) ?_ h
  simp [length_leBytes, zeros]

theorem dataLen_encodeDirItem : leAt 2 0x19 (encodeDirItem objID typ ftype name) = 0 := by
  refine leAt_of_append (a := leBytes 8 objID ++ leBytes 1 typ ++ zeros 16)
    (c := leBytes 2 name.length ++ (leBytes 1 ftype ++ name)) ?_ ?_ (by decide)
  · have hzeros : zeros 18 = zeros 16 ++ leBytes 2 0 := rfl
    simp only [encodeDirItem, hzeros, List.append_assoc]
  · simp [length_leBytes, zeros]

theorem fileType_encodeDirItem (h : ftype < 256) :
    leAt 1 0x1D (encodeDirItem objID typ ftype name) = ftype := by
  refine leAt_of_append
    (a := leBytes 8 objID ++ leBytes 1 typ ++ zeros 18 ++ leBytes 2 name.length)
    (by simp only [encodeDirItem, List.append_assoc]; rfl) ?_ h
  simp [length_leBytes, zeros]

/-- A payload the driver writes holds one entry. -/
theorem parseDirEntries_encodeDirItem (hino : objID < 2 ^ 64) (hft : ftype < 256)
    (hname : NameOk name) :
    parseDirEntries (encodeDirItem objID typ ftype name).length
      (encodeDirItem objID typ ftype name) = [⟨objID, name, ftype⟩] := by
  have hlen := length_encodeDirItem objID typ ftype name
  obtain ⟨fuel, hfuel⟩ : ∃ fuel, (encodeDirItem objID typ ftype name).length = fuel + 1 :=
    ⟨dirItemHdrSize + name.length - 1, by rw [hlen, dirItemHdrSize]; omega⟩
  have htake : ((encodeDirItem objID typ ftype name).drop dirItemHdrSize).take name.length = name := by
    rw [drop_encodeDirItem, List.take_length]
  have hrest : (encodeDirItem objID typ ftype name).drop (dirItemHdrSize + name.length + 0) = [] :=
    List.drop_eq_nil_of_le (by rw [hlen]; omega)
  have hnil : parseDirEntries fuel [] = [] := by
    cases fuel with
    | zero => rfl
    | succ fuel => simp [parseDirEntries, dirItemHdrSize]
  rw [hfuel, parseDirEntries, if_neg (by rw [hlen]; omega)]
  simp only [nameLen_encodeDirItem typ hname, dataLen_encodeDirItem, inode_encodeDirItem typ hino,
    fileType_encodeDirItem typ hft, htake, hrest, hnil]
  rw [if_neg (by rw [hlen]; omega)]

theorem parseDirItems_encodeDirItem (hino : objID < 2 ^ 64) (hft : ftype < 256)
    (hname : NameOk name) (name' : Name) :
    parseDirItems (encodeDirItem objID typ ftype name) name' =
      if name = name' then some (objID, ftype) else none := by
  rw [parseDirItems, parseDirEntries_encodeDirItem typ hino hft hname]
  by_cases h : name = name'
  · simp [h]
  · simp [h]

theorem dirItemName_encodeDirItem (hname : NameOk name) :
    dirItemName (encodeDirItem objID typ ftype name) = some name := by
  have hlen := length_encodeDirItem objID typ ftype name
  rw [dirItemName, if_neg (by rw [hlen]; omega), nameLen_encodeDirItem typ hname,
    if_neg (by rw [hlen]; omega), drop_encodeDirItem, List.take_length]

end fields

/-! ## 3. Back-references -/

/-- What a back-reference can hold. -/
structure RefOk (e : InodeRefEntry) : Prop where
  idx : e.idx < 2 ^ 64
  name : NameOk e.name

theorem encodeInodeRefEntries_cons (e : InodeRefEntry) (l : List InodeRefEntry) :
    encodeInodeRefEntries (e :: l) = encodeInodeRef e.idx e.name ++ encodeInodeRefEntries l := rfl

theorem parseInodeRefsFrom_encode {l : List InodeRefEntry} (hl : ∀ e ∈ l, RefOk e) {fuel : Nat}
    (hfuel : l.length ≤ fuel) : parseInodeRefsFrom fuel (encodeInodeRefEntries l) = l := by
  induction l generalizing fuel with
  | nil =>
    cases fuel with
    | zero => rfl
    | succ fuel => rfl
  | cons e l ih =>
    obtain ⟨hidx, hname⟩ := hl e List.mem_cons_self
    cases fuel with
    | zero => cases hfuel
    | succ fuel =>
      have hbytes : encodeInodeRefEntries (e :: l) =
          leBytes 8 e.idx ++ (leBytes 2 e.name.length ++ (e.name ++ encodeInodeRefEntries l)) := by
        rw [encodeInodeRefEntries_cons, encodeInodeRef, List.append_assoc, List.append_assoc]
      have hlen : leAt 2 8 (encodeInodeRefEntries (e :: l)) = e.name.length :=
        leAt_of_append hbytes (length_leBytes 8 _) hname
      have hat : leAt 8 0 (encodeInodeRefEntries (e :: l)) = e.idx :=
        leAt_of_append (a := []) hbytes rfl hidx
      have hdrop : (encodeInodeRefEntries (e :: l)).drop 10 = e.name ++ encodeInodeRefEntries l := by
        rw [hbytes, ← List.append_assoc]
        exact List.drop_left' (by simp)
      have hlong : 10 + e.name.length ≤ (encodeInodeRefEntries (e :: l)).length := by
        rw [hbytes]
        simp only [List.length_append, length_leBytes]
        omega
      rw [parseInodeRefsFrom, if_neg (by omega), hlen, if_neg (by omega), hat, hdrop,
        List.take_left' rfl, ← List.drop_drop, hdrop, List.drop_left' rfl,
        ih (fun e' he' => hl e' (List.mem_cons_of_mem _ he')) (Nat.le_of_succ_le_succ hfuel)]

theorem length_le_encodeInodeRefEntries (l : List InodeRefEntry) :
    l.length ≤ (encodeInodeRefEntries l).length := by
  induction l with
  | nil => exact le_rfl
  | cons e l ih =>
    rw [encodeInodeRefEntries_cons, encodeInodeRef]
    simp only [List.length_cons, List.length_append, length_leBytes]
    omega

/-- Back-references read back. -/
theorem parseInodeRefEntries_encode {l : List InodeRefEntry} (hl : ∀ e ∈ l, RefOk e) :
    parseInodeRefEntries (encodeInodeRefEntries l) = l :=
  parseInodeRefsFrom_encode hl (length_le_encodeInodeRefEntries l)

end Btrfs
