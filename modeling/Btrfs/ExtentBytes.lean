/-
  Btrfs/ExtentBytes.lean
  ======================
  **What an EXTENT_DATA item adds to a file** — one turn of the loop of `readFileData`,
  taken apart.

  A turn first refuses a regular extent that begins before the end of the last one.  Then
  it finds the bytes of the item (`itemBytes`) and puts them at the item's offset.  The
  bytes depend on the item, the size of the file and the device, not on what the loop has
  assembled, and never reach beyond the end of the file.
-/
import Btrfs.Files

namespace Btrfs

open Lib

variable {σ : Type} (B : Backend σ) (codec : Codec) (s : σ)

/-! ## 1. The parts of a turn -/

/-- The item is a regular extent that begins in the file. -/
def seenRegular (size : Nat) (e : Key × Bytes) : Prop :=
  e.1.offset < size ∧ extentType e.2 = some extentDataRegular ∧ extDataRegularSize ≤ e.2.length

instance (size : Nat) (e : Key × Bytes) : Decidable (seenRegular size e) :=
  inferInstanceAs (Decidable (_ ∧ _))

def regularStop (e : Key × Bytes) : Nat := (e.1.offset + leAt 8 extDataOffNumBytes e.2) % 2 ^ 64

/-- The turn refuses the item: its range wraps, or begins before the end of the last one. -/
def overlapsLast (size prevEnd : Nat) (e : Key × Bytes) : Prop :=
  seenRegular size e ∧ (regularStop e < e.1.offset ∨ e.1.offset < prevEnd)

instance (size prevEnd : Nat) (e : Key × Bytes) : Decidable (overlapsLast size prevEnd e) :=
  inferInstanceAs (Decidable (_ ∧ _))

def nextEnd (size prevEnd : Nat) (e : Key × Bytes) : Nat :=
  if seenRegular size e then regularStop e else prevEnd

/-- The bytes of an item in a file of the given size, from the item's offset on, if they can be
    read.  Holes, preallocated extents and items behind the end have none. -/
def itemBytes (size : Nat) (e : Key × Bytes) : Option Bytes :=
  if size ≤ e.1.offset then some []
  else
    match extentType e.2 with
    | none => some []
    | some typ =>
      if typ = extentDataInline then
        (decompressExtent codec (e.2.drop extDataHdrSize) (leAt 1 extDataOffCompression e.2)
          (clampRAM (leAt 8 extDataOffRamBytes e.2) (size - e.1.offset))).toOption.map
            (·.take (size - e.1.offset))
      else if typ = extentDataRegular then
        if e.2.length < extDataRegularSize then some []
        else if leAt 8 extDataOffDiskBytenr e.2 = 0 then some []
        else (readRegularBytes B codec s e.2
          (min (leAt 8 extDataOffNumBytes e.2) (size - e.1.offset))).toOption
      else some []

/-! ## 2. A turn -/

variable {B codec s} {i : InodeItem}

theorem readExtent_of_seenRegular {acc : Assembled} {e : Key × Bytes} (h : seenRegular i.size e) :
    (readExtent B codec s i acc e).toOption =
      if regularStop e < e.1.offset ∨ e.1.offset < acc.prevEnd then none
      else (itemBytes B codec s i.size e).map fun b =>
        ⟨putAt e.1.offset b acc.out, regularStop e⟩ := by
  obtain ⟨hoff, htype, hlen⟩ := h
  have hne : extentDataRegular ≠ extentDataInline := by decide
  simp only [readExtent, itemBytes, if_neg (not_le.mpr hoff), htype, if_neg hne, if_true,
    if_neg (not_lt.mpr hlen), readRegular, ← regularStop.eq_1]
  split_ifs with hbad hhole
  · rfl
  · simp [Except.toOption]
  · cases readRegularBytes B codec s e.2
      (min (leAt 8 extDataOffNumBytes e.2) (i.size - e.1.offset)) <;> rfl

theorem readExtent_of_not_seenRegular {acc : Assembled} {e : Key × Bytes}
    (h : ¬ seenRegular i.size e) :
    (readExtent B codec s i acc e).toOption =
      (itemBytes B codec s i.size e).map fun b => ⟨putAt e.1.offset b acc.out, acc.prevEnd⟩ := by
  have hskip : (Except.ok acc : Except Err Assembled).toOption =
      (some []).map fun b => ⟨putAt e.1.offset b acc.out, acc.prevEnd⟩ := by simp [Except.toOption]
  by_cases hoff : i.size ≤ e.1.offset
  · simp only [readExtent, itemBytes, if_pos hoff, hskip]
  · rcases htype : extentType e.2 with _ | typ
    · simp only [readExtent, itemBytes, if_neg hoff, htype, hskip]
    · simp only [readExtent, itemBytes, if_neg hoff, htype]
      split_ifs with hinline hregular hlen hhole
      · unfold readInline
        dsimp only
        cases decompressExtent codec (e.2.drop extDataHdrSize) (leAt 1 extDataOffCompression e.2)
          (clampRAM (leAt 8 extDataOffRamBytes e.2) (i.size - e.1.offset)) <;> rfl
      · exact hskip
      · exact absurd ⟨not_le.mp hoff, hregular ▸ htype, not_lt.mp hlen⟩ h
      · exact absurd ⟨not_le.mp hoff, hregular ▸ htype, not_lt.mp hlen⟩ h
      · exact hskip

theorem readExtent_toOption (acc : Assembled) (e : Key × Bytes) :
    (readExtent B codec s i acc e).toOption =
      if overlapsLast i.size acc.prevEnd e then none
      else (itemBytes B codec s i.size e).map fun b =>
        ⟨putAt e.1.offset b acc.out, nextEnd i.size acc.prevEnd e⟩ := by
  by_cases h : seenRegular i.size e
  · rw [readExtent_of_seenRegular h]
    simp only [overlapsLast, nextEnd, h, true_and, if_true]
  · rw [readExtent_of_not_seenRegular h]
    simp only [overlapsLast, nextEnd, h, false_and, if_false]

/-! ## 3. The bytes of a regular extent -/

/-- Within a chunk the device offset follows the address. -/
theorem physAddr_add {sb : Superblock} {m : ChunkMapping} {a n d phys : Nat}
    (hchunk : ∀ j < n, sb.lookupChunk (a + j) = .ok m) (hd : d < n)
    (hphys : sb.physAddr a = .ok phys) : sb.physAddr (a + d) = .ok (phys + d) := by
  have hzero := hchunk 0 (by omega)
  have hstart : m.logStart ≤ a := by
    unfold Superblock.lookupChunk at hzero
    split at hzero
    next m' hfind =>
      obtain rfl := Except.ok.inj hzero
      have hholds := List.find?_some hfind
      exact (of_decide_eq_true hholds).1
    next => cases hzero
  simp only [Superblock.physAddr, Superblock.logToPhys, Nat.add_zero] at hzero hphys ⊢
  rw [hzero] at hphys
  rw [hchunk d hd]
  obtain rfl := Except.ok.inj hphys
  simp only [Except.ok.injEq]
  omega

theorem readAt_eq_ok {dev : Device} {off n : Nat} {b : Bytes} :
    readAt dev off n = .ok b ↔ dev.readCells Payload.bytes? off n = some b := by
  unfold readAt
  cases dev.readCells Payload.bytes? off n with
  | none => simp
  | some c => simp

theorem readAt_length {dev : Device} {off n : Nat} {b : Bytes} (h : readAt dev off n = .ok b) :
    b.length = n :=
  (WriteLog.readCells_eq_some.mp (readAt_eq_ok.mp h)).1

theorem readRegularBytes_plain {d b : Bytes} {n : Nat}
    (hplain : leAt 1 extDataOffCompression d = compressionNone) :
    readRegularBytes B codec s d n = .ok b ↔
      ∃ phys, (B.sb s).physAddr (leAt 8 extDataOffDiskBytenr d + leAt 8 extDataOffOffset d) =
          .ok phys ∧ readAt (B.vol s).dev phys n = .ok b := by
  simp only [readRegularBytes, if_pos hplain]
  cases (B.sb s).physAddr (leAt 8 extDataOffDiskBytenr d + leAt 8 extDataOffOffset d) with
  | error e => simp
  | ok phys =>
    cases hread : readAt (B.vol s).dev phys n with
    | error e => simp [hread]
    | ok c => simp [hread]

theorem readRegularBytes_packed {d b : Bytes} {n : Nat}
    (hpacked : leAt 1 extDataOffCompression d ≠ compressionNone) :
    readRegularBytes B codec s d n = .ok b ↔
      leAt 8 extDataOffDiskNumBytes d ≤ hardSizeCeiling ∧
      ∃ phys src out, (B.sb s).physAddr (leAt 8 extDataOffDiskBytenr d) = .ok phys ∧
        readAt (B.vol s).dev phys (leAt 8 extDataOffDiskNumBytes d) = .ok src ∧
        decompressExtent codec src (leAt 1 extDataOffCompression d)
          (clampRAM (leAt 8 extDataOffRamBytes d) (leAt 8 extDataOffOffset d + n)) = .ok out ∧
        leAt 8 extDataOffOffset d + n ≤ out.length ∧
        b = (out.drop (leAt 8 extDataOffOffset d)).take n := by
  simp only [readRegularBytes, if_neg hpacked]
  by_cases hlarge : hardSizeCeiling < leAt 8 extDataOffDiskNumBytes d
  · simp only [if_pos hlarge, reduceCtorEq, not_le.mpr hlarge, false_and]
  rw [if_neg hlarge]
  simp only [not_lt.mp hlarge, true_and]
  cases (B.sb s).physAddr (leAt 8 extDataOffDiskBytenr d) with
  | error e => simp
  | ok phys =>
    cases hread : readAt (B.vol s).dev phys (leAt 8 extDataOffDiskNumBytes d) with
    | error e => simp [hread]
    | ok src =>
      cases hdec : decompressExtent codec src (leAt 1 extDataOffCompression d)
          (clampRAM (leAt 8 extDataOffRamBytes d) (leAt 8 extDataOffOffset d + n)) with
      | error e => simp [hread, hdec]
      | ok out =>
        by_cases hshort : out.length < leAt 8 extDataOffOffset d + n
        · simp [hread, hdec, hshort]
        · simp [hread, hdec, hshort, not_lt.mp hshort, eq_comm]

theorem readRegularBytes_length {d b : Bytes} {n : Nat}
    (h : readRegularBytes B codec s d n = .ok b) : b.length = n := by
  by_cases hplain : leAt 1 extDataOffCompression d = compressionNone
  · obtain ⟨phys, -, hread⟩ := (readRegularBytes_plain hplain).mp h
    exact readAt_length hread
  · obtain ⟨-, phys, src, out, -, -, -, hlong, rfl⟩ := (readRegularBytes_packed hplain).mp h
    rw [List.length_take, List.length_drop]
    omega

/-- The bytes of an item stay in the file. -/
theorem itemBytes_fits {size : Nat} {e : Key × Bytes} {b : Bytes}
    (h : itemBytes B codec s size e = some b) (hin : e.1.offset < size) :
    e.1.offset + b.length ≤ size := by
  have hnil : some ([] : Bytes) = some b → e.1.offset + b.length ≤ size := by
    rintro ⟨⟩
    exact hin.le
  unfold itemBytes at h
  rw [if_neg (not_le.mpr hin)] at h
  split at h
  · exact hnil h
  · split_ifs at h
    · obtain ⟨c, -, rfl⟩ := Option.map_eq_some_iff.mp h
      rw [List.length_take]
      omega
    · exact hnil h
    · exact hnil h
    · have := readRegularBytes_length (toOption_eq_some.mp h)
      omega
    · exact hnil h

/-- What a successful turn has done to the buffer. -/
theorem readExtent_out {acc acc' : Assembled} {e : Key × Bytes}
    (h : readExtent B codec s i acc e = .ok acc') (hlen : acc.out.length = i.size) :
    ∃ b, itemBytes B codec s i.size e = some b ∧ acc'.out = putAt e.1.offset b acc.out ∧
      (b ≠ [] → e.1.offset + b.length ≤ acc.out.length) := by
  have hturn := toOption_eq_some.mpr h
  rw [readExtent_toOption] at hturn
  split_ifs at hturn
  obtain ⟨b, hb, rfl⟩ := Option.map_eq_some_iff.mp hturn
  refine ⟨b, hb, rfl, fun hne => ?_⟩
  rw [hlen]
  apply itemBytes_fits hb
  by_contra hout
  rw [itemBytes, if_pos (not_lt.mp hout)] at hb
  exact hne (Option.some.inj hb).symm

theorem readExtent_length {acc acc' : Assembled} {e : Key × Bytes}
    (h : readExtent B codec s i acc e = .ok acc') (hlen : acc.out.length = i.size) :
    acc'.out.length = i.size := by
  obtain ⟨b, -, hout, hfits⟩ := readExtent_out h hlen
  rw [hout]
  by_cases hnil : b = []
  · rw [hnil, putAt_nil, hlen]
  · rw [length_putAt (hfits hnil), hlen]

/-! ## 4. The loop -/

variable {items : List (Key × Bytes)} {acc acc' : Assembled} {content : Bytes}

/-- What the whole-file read of a file that is not empty has done. -/
theorem readFileData_inv (hread : readFileData B codec s i = .ok content) (hne : i.size ≠ 0)
    (hitems : B.collectPrefixItems s i.num typeExtentData = .ok items) :
    i.size ≤ hardSizeCeiling ∧ ∃ acc,
      items.foldlM (readExtent B codec s i) ⟨zeros i.size, 0⟩ = .ok acc ∧ acc.out = content := by
  rw [readFileData, if_neg hne, hitems] at hread
  dsimp only at hread
  split_ifs at hread with hlarge
  refine ⟨not_lt.mp hlarge, ?_⟩
  cases hfold : items.foldlM (readExtent B codec s i) ⟨zeros i.size, 0⟩ with
  | error e =>
    rw [hfold] at hread
    cases hread
  | ok acc =>
    rw [hfold] at hread
    exact ⟨acc, rfl, Except.ok.inj hread⟩

theorem readExtents_length (hlen : acc.out.length = i.size)
    (hfold : items.foldlM (readExtent B codec s i) acc = .ok acc') :
    acc'.out.length = i.size := by
  induction items generalizing acc with
  | nil =>
    obtain rfl := Except.ok.inj hfold
    exact hlen
  | cons e items ih =>
    obtain ⟨acc₁, hturn, hrest⟩ := foldlM_cons_eq_ok.mp hfold
    exact ih (readExtent_length hturn hlen) hrest

end Btrfs
