/-
  Btrfs/Truncate.lean
  ===================
  **Truncating a file, again and again.**

  A shrink drops the items behind the new end and trims the one across it; a trimmed item
  is the item of the first bytes of its piece, so that what is left is laid out as before.
  A growth writes the size and no item: the reader fills up with zeros.  It only does so
  when it finds an item at all.  A file that had data and was cut to nothing has none, and
  once it is grown again it cannot be read.
-/
import Btrfs.Names

namespace Btrfs

open Lib

/-! ## 1. Trimming an item -/

section trim

variable {sb : Superblock} {dev : Device} {chunk d : Bytes} {kept : Nat}

theorem ramBytes_offset (generation : Nat) : (leBytes 8 generation).length = extDataOffRamBytes :=
  length_leBytes 8 generation

theorem trimExtent_encodeExtentDataInline (generation : Nat) (h : kept ≤ chunk.length) :
    trimExtent kept (encodeExtentDataInline chunk generation) =
      encodeExtentDataInline (chunk.take kept) generation := by
  rw [trimExtent, if_pos (extentType_encodeExtentDataInline _ _)]
  have htake : (encodeExtentDataInline chunk generation).take (extDataHdrSize + kept) =
      leBytes 8 generation ++ (leBytes 8 chunk.length ++
        (zeros 4 ++ (leBytes 1 extentDataInline ++ chunk.take kept))) := by
    have hhead : (leBytes 8 generation ++ leBytes 8 chunk.length ++ zeros 4 ++
        leBytes 1 extentDataInline).length = extDataHdrSize := by
      simp [length_leBytes, zeros, extDataHdrSize]
    rw [encodeExtentDataInline, ← hhead, List.take_length_add_append]
    simp only [List.append_assoc]
  have hlen : (chunk.take kept).length = kept := by
    rw [List.length_take]
    omega
  rw [htake, putLE_append (ramBytes_offset generation), encodeExtentDataInline, hlen]
  simp only [List.append_assoc]

theorem trimExtent_encodeExtentData (log allocated off n generation : Nat) :
    trimExtent kept (encodeExtentData log allocated off n generation) =
      encodeExtentData log allocated off kept generation := by
  have htype : extentType (encodeExtentData log allocated off n generation) ≠
      some extentDataInline := by
    rw [extentType_encodeExtentData]
    decide
  rw [trimExtent, if_neg htype]
  have hram : putLE 8 extDataOffRamBytes kept (encodeExtentData log allocated off n generation) =
      (leBytes 8 generation ++ leBytes 8 kept ++ zeros 4 ++ leBytes 1 extentDataRegular ++
        leBytes 8 log ++ leBytes 8 allocated ++ leBytes 8 off) ++ (leBytes 8 n ++ []) := by
    simp only [encodeExtentData, List.append_assoc]
    rw [putLE_append (ramBytes_offset generation)]
    simp only [List.append_nil]
  rw [hram, putLE_append, List.append_nil, encodeExtentData]
  simp [length_leBytes, zeros, extDataOffNumBytes]

theorem extentLength_encodeExtentDataInline (generation : Nat) :
    extentLength (encodeExtentDataInline chunk generation) = some chunk.length := by
  simp only [extentLength, extentType_encodeExtentDataInline, if_true,
    length_encodeExtentDataInline, Nat.add_sub_cancel_left]

theorem extentLength_encodeExtentData (log allocated off generation : Nat) {n : Nat}
    (h : n < 2 ^ 64) : extentLength (encodeExtentData log allocated off n generation) = some n := by
  simp only [extentLength, extentType_encodeExtentData,
    if_neg (show extentDataRegular ≠ extentDataInline by decide), length_encodeExtentData,
    lt_irrefl, if_false, numBytes_encodeExtentData _ _ _ _ _ h]

theorem Piece.extentLength (h : Piece sb dev d chunk) (hlt : chunk.length < 2 ^ 64) :
    extentLength d = some chunk.length := by
  cases h with
  | stored generation => exact extentLength_encodeExtentDataInline generation
  | hole generation n =>
    rw [zeros, List.length_replicate] at hlt ⊢
    exact extentLength_encodeExtentData 0 0 0 generation hlt
  | placed generation => exact extentLength_encodeExtentData _ _ 0 generation hlt

/-- A trimmed item stands for the first bytes of its piece. -/
theorem Piece.trim (h : Piece sb dev d chunk) (hkept : kept ≤ chunk.length) :
    Piece sb dev (trimExtent kept d) (chunk.take kept) := by
  have hlen : (chunk.take kept).length = kept := by
    rw [List.length_take]
    omega
  cases h with
  | stored generation =>
    rw [trimExtent_encodeExtentDataInline generation hkept]
    exact Piece.stored generation
  | hole generation n =>
    rw [zeros, List.length_replicate] at hkept
    rw [trimExtent_encodeExtentData, zeros, List.take_replicate, Nat.min_eq_left hkept]
    exact Piece.hole generation kept
  | @placed _ generation log _ allocated hne hlt hle hmax hphys hread =>
    have hpiece : Piece sb dev (encodeExtentData log allocated 0 (chunk.take kept).length generation)
        (chunk.take kept) :=
      Piece.placed generation hne hlt (by rw [hlen]; omega) hmax hphys
        (by rw [hlen]; exact WriteLog.readCells_take hread hkept)
    rw [hlen] at hpiece
    rwa [trimExtent_encodeExtentData]

end trim

/-! ## 2. Cutting a body -/

section cut

variable {sb : Superblock} {dev : Device} {ino off : Nat} {items : List (Key × Bytes)} {data : Bytes}

theorem Laid.eq_nil (h : Laid sb dev ino off items data) (hdata : data = []) : items = [] := by
  cases h with
  | nil => rfl
  | cons _ hne _ => exact absurd (List.append_eq_nil_iff.mp hdata).1 hne

/-- What is left of the items is the layout of what is left of the data. -/
theorem Laid.cut (h : Laid sb dev ino off items data) (hlt : off + data.length < 2 ^ 64)
    (newSize : Nat) :
    Laid sb dev ino off (items.filterMap (cutItem newSize)) (data.take (newSize - off)) := by
  induction h with
  | nil =>
    rw [List.take_nil]
    exact Laid.nil
  | @cons off d chunk rest l hpiece hne hlaid ih =>
    rw [List.length_append] at hlt
    have hrest := ih (by omega)
    have hlen := hpiece.extentLength (by omega)
    have hpos : 0 < chunk.length := List.length_pos_iff.mpr hne
    by_cases hin : off + chunk.length ≤ newSize
    · have hcut : cutItem newSize (⟨ino, typeExtentData, off⟩, d) =
          some (⟨ino, typeExtentData, off⟩, d) := by
        simp only [cutItem, hlen, if_pos hin]
      rw [List.filterMap_cons_some hcut, List.take_append, List.take_of_length_le (by omega),
        Nat.sub_sub]
      exact Laid.cons hpiece hne hrest
    -- nothing is left behind the end
    have hnil : newSize - (off + chunk.length) = 0 := by omega
    rw [hnil, List.take_zero] at hrest
    have hbehind := hrest.eq_nil rfl
    rw [List.take_append_of_le_length (by omega)]
    by_cases hout : newSize ≤ off
    · have hcut : cutItem newSize (⟨ino, typeExtentData, off⟩, d) = none := by
        simp only [cutItem, hlen, if_neg hin, if_pos hout]
      rw [List.filterMap_cons_none hcut, hbehind, Nat.sub_eq_zero_of_le hout, List.take_zero]
      exact Laid.nil
    · have hcut : cutItem newSize (⟨ino, typeExtentData, off⟩, d) =
          some (⟨ino, typeExtentData, off⟩, trimExtent (newSize - off) d) := by
        simp only [cutItem, hlen, if_neg hin, if_neg hout]
      rw [List.filterMap_cons_some hcut, hbehind]
      refine laid_singleton ino off (hpiece.trim (by omega)) ?_
      rw [← List.length_pos_iff, List.length_take]
      omega

end cut

variable {s s' s₁ : MapFs} {ino newSize : Nat} {now : Timespec} {p : Path}

/-! ## 3. A file between its calls -/

/-- What is left of a body that was cut, if there is an item left. -/
def cutBody (newSize : Nat) : Option Bytes → Option Bytes
  | none => none
  | some data => if data ≠ [] ∧ newSize = 0 then none else some (data.take newSize)

/-- The items of an inode are the layout of a body, or there are none. -/
def BodyIs (s : MapFs) (ino : Nat) : Option Bytes → Prop
  | none => s.body ino = []
  | some data => Layout s.sb s.vol.dev ino (s.body ino) data

variable {i : InodeItem} {kept : Option Bytes}

theorem BodyIs.churned (h : BodyIs s ino kept) (hs : Intact s) (hch : Churned s s')
    (hbody : s'.body ino = s.body ino) : BodyIs s' ino kept := by
  cases kept with
  | none => exact hbody.trans h
  | some data =>
    rw [BodyIs, hbody]
    exact hs.layout_churned hch h

theorem BodyIs.cut (h : BodyIs s ino kept) (hs : Intact s) (hch : Churned s s')
    (hbody : s'.body ino = (s.body ino).filterMap (cutItem newSize))
    (hlt : ∀ data ∈ kept, data.length < 2 ^ 64) : BodyIs s' ino (cutBody newSize kept) := by
  cases kept with
  | none =>
    have hnil : s.body ino = [] := h
    rw [hnil] at hbody
    exact hbody
  | some data =>
    have hlay : Layout s'.sb s'.vol.dev ino (s.body ino) data := hs.layout_churned hch h
    have hlt := hlt data rfl
    rw [cutBody]
    generalize s.body ino = items at hbody hlay
    cases hlay with
    | empty generation =>
      have hcut : cutItem newSize (⟨ino, typeExtentData, 0⟩, encodeExtentDataInline [] generation) =
          some (⟨ino, typeExtentData, 0⟩, encodeExtentDataInline [] generation) := by
        simp only [cutItem, extentLength_encodeExtentDataInline, List.length_nil, Nat.add_zero,
          Nat.zero_le, if_true]
      rw [List.filterMap_cons_some hcut] at hbody
      rw [if_neg (fun hc => hc.1 rfl), List.take_nil, BodyIs, hbody]
      exact Layout.empty generation
    | laid hne hlaid =>
      have hcut := hlaid.cut (by rwa [Nat.zero_add]) newSize
      rw [Nat.sub_zero, ← hbody] at hcut
      by_cases hzero : newSize = 0
      · rw [if_pos ⟨hne, hzero⟩]
        exact hcut.eq_nil (by rw [hzero, List.take_zero])
      · rw [if_neg fun hc => hzero hc.2]
        refine Layout.laid ?_ hcut
        simp [List.take_eq_nil_iff, hzero, hne]

/-- The path leads to this regular inode, and what is left of its body is not longer than the file. -/
structure FileAt (s : MapFs) (p : Path) (i : InodeItem) (kept : Option Bytes) : Prop where
  intact : Intact s
  lookup : pathLookup mapBackend s p = .ok i
  regular : i.isRegular = true
  body : BodyIs s i.num kept
  fits : (kept.getD []).length ≤ i.size
  small : i.size < 2 ^ 64

/-- The change of the size in the INODE_ITEM, after what was done to the body. -/
theorem FileAt.resized {f : MapFs → Bytes → Bytes} {kept' : Option Bytes} (h : FileAt s p i kept)
    (hstep : BodyStep i.num s s₁) (hbody : BodyIs s₁ i.num kept') (hs₁ : Intact s₁) (hs' : Intact s')
    {g : InodeItem → InodeItem} (hf : EditsTo i.num f g) (hg : g i = { i with size := newSize })
    (hsmall : newSize < 2 ^ 64) (hfits : (kept'.getD []).length ≤ newSize)
    (hrun : updateInodeMetadata mapBackend now i.num f s₁ = .ok () s') :
    FileAt s' p { i with size := newSize } kept' := by
  obtain ⟨hwalk, hread⟩ := pathLookup_inv h.lookup
  have hread₁ : readInode mapBackend s₁ i.num = .ok i :=
    (readInode_congr (hstep.inodes i.num)).trans hread
  obtain ⟨-, ⟨d, hrec⟩, hread'⟩ := updateInodeMetadata_effect hf (by rw [hg]) hread₁ hrun
  have hbody' : s'.body i.num = s₁.body i.num := by
    rw [MapFs.body, hrec]
    exact Records.keep_update_of_false (inPrefix_inodeKey (by decide) i.num)
  have hentries : SameEntries s.records s'.records := by
    refine hstep.entries.trans ?_
    rw [hrec]
    exact SameEntries.update (by decide : typeInodeItem ≠ _) (by decide : typeInodeItem ≠ _)
  refine ⟨hs', ?_, h.regular, ?_, hfits, hsmall⟩
  · rw [hg] at hread'
    exact pathLookup_of_walk ((walkPath_congr hentries _ _).trans hwalk) hread'
  · exact hbody.churned hs₁ (updateInodeMetadata_churned hs₁.space hrun) hbody'

theorem length_cutBody (newSize : Nat) (kept : Option Bytes) :
    ((cutBody newSize kept).getD []).length ≤ newSize := by
  cases kept with
  | none => exact Nat.zero_le _
  | some data =>
    rw [cutBody]
    split_ifs
    · exact Nat.zero_le _
    · exact List.length_take_le _ _

/-- One `Truncate`. -/
theorem FileAt.truncate (h : FileAt s p i kept) (hsmall : newSize < 2 ^ 64)
    (hrun : truncateInode mapBackend now p newSize s = .ok () s') :
    FileAt s' p { i with size := newSize } (if newSize < i.size then cutBody newSize kept else kept) := by
  have hs' : Intact s' :=
    (call_ok (c := .truncate p newSize) h.intact trivial hrun).1
  have hmod : ({ i with size := newSize % 2 ^ 64 } : InodeItem) = { i with size := newSize } := by
    rw [Nat.mod_eq_of_lt hsmall]
  obtain ⟨j, hlook, -, hcase⟩ := truncateInode_cases hrun
  obtain rfl : i = j := Except.ok.inj (h.lookup.symm.trans hlook)
  rcases hcase with ⟨hgrow, hedit⟩ | ⟨rfl, hedit⟩ | ⟨hlt, s₁, hcut, hedit⟩
  · rw [if_neg (by omega)]
    exact h.resized (BodyStep.refl h.intact.space) h.body h.intact hs' (editsTo_putSize _ _) hmod
      hsmall (h.fits.trans hgrow.le) hedit
  · rw [if_neg (lt_irrefl _)]
    exact h.resized (BodyStep.refl h.intact.space) h.body h.intact hs' (editsTo_id _) rfl hsmall
      h.fits hedit
  · rw [if_pos hlt]
    obtain ⟨hs₁, hstep, hbody⟩ := cutExtents_effect h.intact hcut
    refine h.resized hstep (h.body.cut h.intact hstep.churned hbody ?_) hs₁ hs'
      (editsTo_putSizes _ _ _) hmod hsmall (length_cutBody newSize kept) hedit
    rintro data ⟨⟩
    exact h.fits.trans_lt h.small

theorem FileAt.scripted (h : FileAt s p i kept) (script : List (List NodeEvent)) :
    FileAt (s.scripted script) p i kept := by
  have hrec : (s.scripted script).records = s.records := rfl
  refine ⟨h.intact.scripted script, (pathLookup_records hrec p).trans h.lookup, h.regular, ?_, h.fits,
    h.small⟩
  cases kept with
  | none => exact h.body
  | some data => exact h.body

/-- What a `Truncate` is to do to the content. -/
def resize (n : Nat) (b : Bytes) : Bytes := b.take n ++ zeros (n - b.length)

/-- The calls `Truncate(p, n)` for `n` in the list were made one after the other, each with success. -/
def Truncated (p : Path) : MapFs → List Nat → MapFs → Prop
  | s, [], s' => s' = s
  | s, n :: ns, s' => n ≤ 2 ^ 30 ∧ ∃ now script s₁,
      truncateInode mapBackend now p n (s.scripted script) = .ok () s₁ ∧ Truncated p s₁ ns s'

theorem Truncated.le {ns : List Nat} (h : Truncated p s ns s') : ∀ n ∈ ns, n ≤ 2 ^ 30 := by
  induction ns generalizing s with
  | nil => exact nofun
  | cons n ns ih =>
    obtain ⟨hn, -, -, s₁, -, hrest⟩ := h
    exact List.forall_mem_cons.mpr ⟨hn, ih hrest⟩

section sizes

variable {size n : Nat} (h : (kept.getD []).length ≤ size)
include h

end sizes

def writeA : Call := .writeFile pathA [1, 2] 0o644

def truncateA (n : Nat) : Call := .truncate pathA n

end Btrfs
