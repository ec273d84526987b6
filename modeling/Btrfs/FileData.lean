/-
  Btrfs/FileData.lean
  ===================
  **Bodies laid out in pieces** — what `readFileData` makes of the items `writeExtents`
  leaves.

  A body is stored inline, as a hole, or as pieces on the device.  `Piece` says that one
  item stands for some bytes, `Laid` that a list of items stands for a body from a file
  offset on, without gaps; the empty body has an item too.  The reader starts from a buffer
  of zeros and puts one piece after the other into it, so that a file that is longer than
  its body goes on with zeros.
-/
import Btrfs.Files

namespace Btrfs

open Lib

/-! ## 1. Fields of the items -/

section fields

variable (diskBytenr diskNumBytes numBytes generation : Nat)

theorem length_encodeExtentData (fileOffset : Nat) :
    (encodeExtentData diskBytenr diskNumBytes fileOffset numBytes generation).length =
      extDataRegularSize := by
  simp [encodeExtentData, length_leBytes, zeros, extDataRegularSize]

theorem extentType_encodeExtentData (fileOffset : Nat) :
    extentType (encodeExtentData diskBytenr diskNumBytes fileOffset numBytes generation) =
      some extentDataRegular := by
  rw [extentType, length_encodeExtentData, if_neg (by decide)]
  refine congrArg some (leAt_of_append
    (a := leBytes 8 generation ++ leBytes 8 numBytes ++ zeros 4)
    (by simp only [encodeExtentData, List.append_assoc]; rfl) ?_ (by decide))
  simp [length_leBytes, zeros, extDataOffType]

theorem compression_encodeExtentData (fileOffset : Nat) :
    leAt 1 extDataOffCompression
      (encodeExtentData diskBytenr diskNumBytes fileOffset numBytes generation) =
      compressionNone := by
  refine leAt_of_append (a := leBytes 8 generation ++ leBytes 8 numBytes)
    (c := zeros 3 ++ (leBytes 1 extentDataRegular ++ (leBytes 8 diskBytenr ++
      (leBytes 8 diskNumBytes ++ (leBytes 8 fileOffset ++ leBytes 8 numBytes)))))
    ?_ ?_ (by decide)
  · simp only [encodeExtentData, List.append_assoc]
    rfl
  · simp [length_leBytes, extDataOffCompression]

theorem diskBytenr_encodeExtentData (fileOffset : Nat) (h : diskBytenr < 2 ^ 64) :
    leAt 8 extDataOffDiskBytenr
      (encodeExtentData diskBytenr diskNumBytes fileOffset numBytes generation) = diskBytenr := by
  refine leAt_of_append
    (a := leBytes 8 generation ++ leBytes 8 numBytes ++ zeros 4 ++ leBytes 1 extentDataRegular)
    (by simp only [encodeExtentData, List.append_assoc]; rfl) ?_ h
  simp [length_leBytes, zeros, extDataOffDiskBytenr]

theorem diskNumBytes_encodeExtentData (fileOffset : Nat) (h : diskNumBytes < 2 ^ 64) :
    leAt 8 extDataOffDiskNumBytes
      (encodeExtentData diskBytenr diskNumBytes fileOffset numBytes generation) =
      diskNumBytes := by
  refine leAt_of_append
    (a := leBytes 8 generation ++ leBytes 8 numBytes ++ zeros 4 ++ leBytes 1 extentDataRegular ++
      leBytes 8 diskBytenr)
    (by simp only [encodeExtentData, List.append_assoc]; rfl) ?_ h
  simp [length_leBytes, zeros, extDataOffDiskNumBytes]

theorem offset_encodeExtentData (fileOffset : Nat) (h : fileOffset < 2 ^ 64) :
    leAt 8 extDataOffOffset
      (encodeExtentData diskBytenr diskNumBytes fileOffset numBytes generation) = fileOffset := by
  refine leAt_of_append
    (a := leBytes 8 generation ++ leBytes 8 numBytes ++ zeros 4 ++ leBytes 1 extentDataRegular ++
      leBytes 8 diskBytenr ++ leBytes 8 diskNumBytes)
    (by simp only [encodeExtentData, List.append_assoc]; rfl) ?_ h
  simp [length_leBytes, zeros, extDataOffOffset]

theorem numBytes_encodeExtentData (fileOffset : Nat) (h : numBytes < 2 ^ 64) :
    leAt 8 extDataOffNumBytes
      (encodeExtentData diskBytenr diskNumBytes fileOffset numBytes generation) = numBytes := by
  refine leAt_of_append
    (a := leBytes 8 generation ++ leBytes 8 numBytes ++ zeros 4 ++ leBytes 1 extentDataRegular ++
      leBytes 8 diskBytenr ++ leBytes 8 diskNumBytes ++ leBytes 8 fileOffset) (c := [])
    (by simp only [encodeExtentData, List.append_assoc, List.append_nil]) ?_ h
  simp [length_leBytes, zeros, extDataOffNumBytes]

variable (inlineData : Bytes)

theorem length_encodeExtentDataInline :
    (encodeExtentDataInline inlineData generation).length =
      extDataHdrSize + inlineData.length := by
  simp only [encodeExtentDataInline, List.length_append, length_leBytes, zeros,
    List.length_replicate, extDataHdrSize]

theorem extentType_encodeExtentDataInline :
    extentType (encodeExtentDataInline inlineData generation) = some extentDataInline := by
  rw [extentType, length_encodeExtentDataInline, if_neg (by simp only [extDataHdrSize, extDataOffType]; omega)]
  refine congrArg some (leAt_of_append
    (a := leBytes 8 generation ++ leBytes 8 inlineData.length ++ zeros 4)
    (by simp only [encodeExtentDataInline, List.append_assoc]; rfl) ?_ (by decide))
  simp [length_leBytes, zeros, extDataOffType]

theorem compression_encodeExtentDataInline :
    leAt 1 extDataOffCompression (encodeExtentDataInline inlineData generation) =
      compressionNone := by
  refine leAt_of_append (a := leBytes 8 generation ++ leBytes 8 inlineData.length)
    (c := zeros 3 ++ (leBytes 1 extentDataInline ++ inlineData)) ?_ ?_ (by decide)
  · simp only [encodeExtentDataInline, List.append_assoc]
    rfl
  · simp [length_leBytes, extDataOffCompression]

theorem drop_encodeExtentDataInline :
    (encodeExtentDataInline inlineData generation).drop extDataHdrSize = inlineData := by
  rw [encodeExtentDataInline]
  refine List.drop_left' ?_
  simp [length_leBytes, zeros, extDataHdrSize]

end fields

/-! ## 2. Pieces -/

/-- The item stands for the bytes `chunk` of a file. -/
inductive Piece (sb : Superblock) (dev : Device) : Bytes → Bytes → Prop
  | stored {chunk : Bytes} (generation : Nat) :
      Piece sb dev (encodeExtentDataInline chunk generation) chunk
  | hole (generation n : Nat) : Piece sb dev (encodeExtentData 0 0 0 n generation) (zeros n)
  | placed {chunk : Bytes} (generation : Nat) {log phys allocated : Nat}
      (hne : log ≠ 0) (hlt : log < 2 ^ 63) (hle : chunk.length ≤ allocated)
      (hmax : allocated ≤ 2 ^ 63) (hphys : sb.physAddr log = .ok phys)
      (hread : dev.readCells Payload.bytes? phys chunk.length = some chunk) :
      Piece sb dev (encodeExtentData log allocated 0 chunk.length generation) chunk

/-- The items stand for the body from file offset `off` on, piece after piece. -/
inductive Laid (sb : Superblock) (dev : Device) (ino : Nat) :
    Nat → List (Key × Bytes) → Bytes → Prop
  | nil {off : Nat} : Laid sb dev ino off [] []
  | cons {off : Nat} {d chunk rest : Bytes} {l : List (Key × Bytes)} (hpiece : Piece sb dev d chunk)
      (hne : chunk ≠ []) (hrest : Laid sb dev ino (off + chunk.length) l rest) :
      Laid sb dev ino off ((⟨ino, typeExtentData, off⟩, d) :: l) (chunk ++ rest)

theorem laid_singleton {sb : Superblock} {dev : Device} (ino off : Nat) {d chunk : Bytes}
    (hpiece : Piece sb dev d chunk) (hne : chunk ≠ []) :
    Laid sb dev ino off [(⟨ino, typeExtentData, off⟩, d)] chunk := by
  have h : Laid sb dev ino off _ (chunk ++ []) := Laid.cons hpiece hne Laid.nil
  rwa [List.append_nil] at h

theorem Laid.append {sb : Superblock} {dev : Device} {ino off : Nat}
    {items items' : List (Key × Bytes)} {data data' : Bytes} (h : Laid sb dev ino off items data)
    (h' : Laid sb dev ino (off + data.length) items' data') :
    Laid sb dev ino off (items ++ items') (data ++ data') := by
  induction h with
  | nil => exact h'
  | @cons off d chunk rest l hpiece hne _ ih =>
    rw [List.append_assoc]
    refine Laid.cons hpiece hne (ih ?_)
    rw [List.length_append, ← Nat.add_assoc] at h'
    exact h'

/-- The items stand for a whole body, of which the empty one has an item as well. -/
inductive Layout (sb : Superblock) (dev : Device) (ino : Nat) : List (Key × Bytes) → Bytes → Prop
  | empty (generation : Nat) :
      Layout sb dev ino [(⟨ino, typeExtentData, 0⟩, encodeExtentDataInline [] generation)] []
  | laid {items : List (Key × Bytes)} {data : Bytes} (hne : data ≠ [])
      (h : Laid sb dev ino 0 items data) : Layout sb dev ino items data

theorem Layout.items_ne_nil {sb : Superblock} {dev : Device} {ino : Nat}
    {items : List (Key × Bytes)} {data : Bytes} (h : Layout sb dev ino items data) : items ≠ [] := by
  rintro rfl
  cases h with
  | laid hne h =>
    cases h
    exact hne rfl

theorem putAt_zeros {done chunk : Bytes} {n : Nat} :
    putAt done.length chunk (done ++ zeros n) = done ++ chunk ++ zeros (n - chunk.length) := by
  rw [putAt, List.take_left, List.drop_append, List.drop_eq_nil_of_le (by omega), List.nil_append,
    Nat.add_sub_cancel_left, zeros, zeros, List.drop_replicate]

/-! ## 3. The extents of the items -/

theorem extentSpan_stored (sb : Superblock) (chunk : Bytes) (generation : Nat) :
    extentSpan sb extentDataRegular (encodeExtentDataInline chunk generation) = none := by
  rw [extentSpan, extentType_encodeExtentDataInline, if_pos (by decide)]

theorem extentSpan_hole (sb : Superblock) (n generation : Nat) :
    extentSpan sb extentDataRegular (encodeExtentData 0 0 0 n generation) = none := by
  simp only [extentSpan, extentType_encodeExtentData, length_encodeExtentData, ne_eq,
    not_true_eq_false, if_false, lt_irrefl, diskBytenr_encodeExtentData _ _ _ _ _
    (show 0 < 2 ^ 64 by decide), if_true]

theorem extentSpan_placed {sb : Superblock} {log phys allocated : Nat} (n generation : Nat)
    (hne : log ≠ 0) (hlt : log < 2 ^ 63) (hmax : allocated ≤ 2 ^ 63)
    (hphys : sb.physAddr log = .ok phys) :
    extentSpan sb extentDataRegular (encodeExtentData log allocated 0 n generation) =
      some ⟨phys, allocated⟩ := by
  have hlog : sb.logToPhys log = .ok phys := hphys
  simp only [extentSpan, extentType_encodeExtentData, length_encodeExtentData, ne_eq,
    not_true_eq_false, if_false, lt_irrefl, diskBytenr_encodeExtentData _ _ _ _ _
    (show log < 2 ^ 64 by omega), hne, hlog,
    diskNumBytes_encodeExtentData _ _ _ _ _ (show allocated < 2 ^ 64 by omega)]

/-- A layout stays when the bytes of its extents do. -/
theorem Laid.mono {sb sb' : Superblock} {dev dev' : Device} {ino off : Nat}
    {items : List (Key × Bytes)} {data : Bytes} (h : Laid sb dev ino off items data)
    (hphys : ∀ a, sb'.physAddr a = sb.physAddr a)
    (hcells : ∀ e ∈ items, ∀ x, extentSpan sb extentDataRegular e.2 = some x →
      ∀ p ∈ x.bytes, dev'.cellAt Payload.bytes? p = dev.cellAt Payload.bytes? p) :
    Laid sb' dev' ino off items data := by
  induction h with
  | nil => exact Laid.nil
  | @cons off d chunk rest l hpiece hne _ ih =>
    refine Laid.cons ?_ hne (ih fun e he => hcells e (List.mem_cons_of_mem _ he))
    cases hpiece with
    | stored generation => exact Piece.stored generation
    | hole generation n => exact Piece.hole generation n
    | placed generation hlogne hlt hle hmax hlog hread =>
      refine Piece.placed generation hlogne hlt hle hmax ((hphys _).trans hlog) ?_
      refine (WriteLog.readCells_congr ?_).trans hread
      intro p hlo hhi
      exact hcells _ List.mem_cons_self _ (extentSpan_placed _ _ hlogne hlt hmax hlog) p
        (Span.mem_bytes.mpr ⟨hlo, by simp only; omega⟩)

theorem Layout.mono {sb sb' : Superblock} {dev dev' : Device} {ino : Nat}
    {items : List (Key × Bytes)} {data : Bytes} (h : Layout sb dev ino items data)
    (hphys : ∀ a, sb'.physAddr a = sb.physAddr a)
    (hcells : ∀ e ∈ items, ∀ x, extentSpan sb extentDataRegular e.2 = some x →
      ∀ p ∈ x.bytes, dev'.cellAt Payload.bytes? p = dev.cellAt Payload.bytes? p) :
    Layout sb' dev' ino items data := by
  cases h with
  | empty generation => exact Layout.empty generation
  | laid hne h => exact Layout.laid hne (h.mono hphys hcells)

/-! ## 4. Reading -/

variable {σ : Type} {B : Backend σ} (codec : Codec) {s : σ} {i : InodeItem}

/-- One turn of the reading loop puts one piece into the buffer. -/
theorem readExtent_piece (ino : Nat) {d chunk done : Bytes} {prevEnd : Nat}
    (hpiece : Piece (B.sb s) (B.vol s).dev d chunk) (hne : chunk ≠ [])
    (hfit : done.length + chunk.length ≤ i.size) (hsize : i.size ≤ hardSizeCeiling)
    (hprev : prevEnd ≤ done.length) :
    ∃ prevEnd', prevEnd' ≤ done.length + chunk.length ∧
      readExtent B codec s i ⟨done ++ zeros (i.size - done.length), prevEnd⟩
        (⟨ino, typeExtentData, done.length⟩, d) =
        .ok ⟨done ++ chunk ++ zeros (i.size - done.length - chunk.length), prevEnd'⟩ := by
  have hpos : 0 < chunk.length := List.length_pos_iff.mpr hne
  have hinside : ¬ i.size ≤ done.length := by omega
  have hbound : done.length + chunk.length < 2 ^ 64 := by
    have : hardSizeCeiling < 2 ^ 64 := by decide
    omega
  have hput : ∀ c : Bytes, c.length = chunk.length →
      putAt done.length c (done ++ zeros (i.size - done.length)) =
        done ++ c ++ zeros (i.size - done.length - chunk.length) := by
    intro c hc
    rw [← hc]
    exact putAt_zeros
  cases hpiece with
  | stored generation =>
    refine ⟨prevEnd, by omega, ?_⟩
    have htake : chunk.take (i.size - done.length) = chunk := List.take_of_length_le (by omega)
    simp only [readExtent, if_neg hinside, extentType_encodeExtentDataInline, if_true, readInline,
      compression_encodeExtentDataInline, drop_encodeExtentDataInline, decompressExtent, htake,
      hput chunk rfl]
  | hole generation n =>
    have hn : (zeros n).length = n := List.length_replicate
    rw [hn] at hfit hbound hpos ⊢
    refine ⟨done.length + n, le_rfl, ?_⟩
    have hzeros : zeros (i.size - done.length) = zeros n ++ zeros (i.size - done.length - n) := by
      rw [zeros, zeros, zeros, List.replicate_append_replicate]
      congr 1
      omega
    have hreg : extentDataRegular ≠ extentDataInline := by decide
    simp only [readExtent, if_neg hinside, extentType_encodeExtentData, if_neg hreg, if_true,
      length_encodeExtentData, lt_irrefl, if_false, readRegular,
      numBytes_encodeExtentData _ _ _ _ _ (show n < 2 ^ 64 by omega),
      diskBytenr_encodeExtentData _ _ _ _ _ (show 0 < 2 ^ 64 by decide), Nat.mod_eq_of_lt hbound,
      if_neg (show ¬ (done.length + n < done.length ∨ done.length < prevEnd) by omega)]
    rw [hzeros, List.append_assoc]
  | @placed _ generation log phys allocated hlogne hlt hle hmax hphys hread =>
    refine ⟨done.length + chunk.length, le_rfl, ?_⟩
    have hreg : extentDataRegular ≠ extentDataInline := by decide
    have hmin : min chunk.length (i.size - done.length) = chunk.length := by omega
    simp only [readExtent, if_neg hinside, extentType_encodeExtentData, if_neg hreg, if_true,
      length_encodeExtentData, lt_irrefl, if_false, readRegular,
      numBytes_encodeExtentData _ _ _ _ _ (show chunk.length < 2 ^ 64 by omega),
      diskBytenr_encodeExtentData _ _ _ _ _ (show log < 2 ^ 64 by omega), Nat.mod_eq_of_lt hbound,
      if_neg (show ¬ (done.length + chunk.length < done.length ∨ done.length < prevEnd) by omega),
      if_neg hlogne, readRegularBytes, compression_encodeExtentData,
      offset_encodeExtentData _ _ _ _ _ (show 0 < 2 ^ 64 by decide), hphys, hmin, readAt, hread,
      hput chunk rfl, Nat.add_zero]

/-- The reading loop over the rest of a body, in a file that may go on behind it. -/
theorem readExtents_laid (done : Bytes) (prevEnd : Nat) {ino off : Nat}
    {items : List (Key × Bytes)} {rest : Bytes}
    (hlaid : Laid (B.sb s) (B.vol s).dev ino off items rest) (hoff : off = done.length)
    (hfit : done.length + rest.length ≤ i.size) (hsize : i.size ≤ hardSizeCeiling)
    (hprev : prevEnd ≤ done.length) :
    (items.foldlM (readExtent B codec s i) ⟨done ++ zeros (i.size - done.length), prevEnd⟩).map
      Assembled.out = .ok (done ++ rest ++ zeros (i.size - done.length - rest.length)) := by
  induction hlaid generalizing done prevEnd with
  | nil =>
    rw [List.append_nil]
    rfl
  | @cons off d chunk rest l hpiece hne hlaid ih =>
    subst hoff
    rw [List.length_append] at hfit
    obtain ⟨prevEnd', hprev', hturn⟩ := readExtent_piece codec ino hpiece hne (by omega) hsize
      hprev
    rw [List.foldlM_cons, hturn]
    have hlen : (done ++ chunk).length = done.length + chunk.length := List.length_append
    have hrest := ih (done ++ chunk) prevEnd' hlen.symm (by omega) (by omega)
    rw [hlen, ← Nat.sub_sub, List.append_assoc done chunk rest] at hrest
    rw [List.length_append, ← Nat.sub_sub]
    exact hrest

/-- A file reads as its body, and as zeros behind it. -/
theorem readFileData_layout {items : List (Key × Bytes)} {data : Bytes}
    (hlay : Layout (B.sb s) (B.vol s).dev i.num items data) (hle : data.length ≤ i.size)
    (hsize : i.size ≤ hardSizeCeiling)
    (hitems : B.collectPrefixItems s i.num typeExtentData = .ok items) :
    readFileData B codec s i = .ok (data ++ zeros (i.size - data.length)) := by
  rw [readFileData]
  by_cases hzero : i.size = 0
  · have hdata : data = [] := List.length_eq_zero_iff.mp (by omega)
    rw [if_pos hzero, hzero, hdata]
    rfl
  · rw [if_neg hzero, hitems]
    simp only [if_neg (show ¬ hardSizeCeiling < i.size by omega)]
    cases hlay with
    | laid hne hlaid =>
      have hread := readExtents_laid codec [] 0 hlaid rfl (by simpa using hle) hsize le_rfl
      rwa [List.nil_append] at hread
    | empty generation =>
      have hturn : readExtent B codec s i ⟨zeros i.size, 0⟩
          (⟨i.num, typeExtentData, 0⟩, encodeExtentDataInline [] generation) =
          .ok ⟨zeros i.size, 0⟩ := by
        simp only [readExtent, if_neg (show ¬ i.size ≤ 0 by omega), extentType_encodeExtentDataInline,
          if_true, readInline, compression_encodeExtentDataInline, drop_encodeExtentDataInline,
          decompressExtent, List.take_nil]
        rfl
      rw [List.foldlM_cons, hturn]
      rfl

end Btrfs
