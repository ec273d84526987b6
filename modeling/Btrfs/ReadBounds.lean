/-
  Btrfs/ReadBounds.lean
  =====================
  **The read path stays in its buffers.**

  Whatever the device holds, a reader returns a value or an error (`readPath_inBounds`).
  The only thing asked of the answers is their size: a node is as long as the superblock
  says, at least a header, and a buffer that was asked to be filled is filled.

  The loops over the extents of a file keep the length of the buffer they fill.  An extent
  is cut to what is left of the file, so the sums that could wrap do not.
-/
import Btrfs.ExtentMap
import Btrfs.NodeCache

namespace Btrfs.Raw

open Lib

variable {o : Question → Answer} {ns : Nat} {b d : Bytes} {k want : Key}

/-! ## 1. Programs -/

/-- Node blocks are as long as the node size, and buffers are filled. -/
structure Sized (ns : Nat) (o : Question → Answer) : Prop where
  node : ∀ a b, o (.node a) = .ok b → b.length = ns
  data : ∀ off n b, o (.data off n) = .ok b → b.length = n

section Lift

variable {α β : Type} {P : α → Prop} {S : β → Prop} {x : Go α} {f : α → ReadM β}

/-- An access to a buffer, and what follows it. -/
theorem ensures_lift (hx : Ensures P x) (hf : ∀ a, P a → Ensures S ((f a).run o)) :
    Ensures S (((x : ReadM α) >>= f).run o) := by
  rw [Ask.run_bind]
  exact Ensures.bind hx hf

theorem ensures_wrapping {r : Except Err α} (format : String) (args : List ErrArg)
    (hf : ∀ a, r = .ok a → Ensures S ((f a).run o)) :
    Ensures S (((wrapping format args r : ReadM α) >>= f).run o) := by
  cases r with
  | ok a => exact hf a rfl
  | error e => trivial

end Lift

theorem ensures_readNode (ho : Sized ns o) (a : Nat) :
    Ensures (fun b => b.length = ns) ((readNode a).run o) :=
  (ensures_ofExcept (o (.node a))).mono (ho.node a)

theorem ensures_readBytes (ho : Sized ns o) (off n : Nat) :
    Ensures (fun b => b.length = n) ((readBytes off n).run o) :=
  (ensures_ofExcept (o (.data off n))).mono (ho.data off n)

/-! ## 2. Nodes -/

theorem ensures_readHeader (h : nodeHdrSize ≤ b.length) : Ensures (fun _ => True) (readHeader b) := by
  have hsz : nodeHdrSize = 0x65 := rfl
  rw [readHeader]
  apply (ensures_fieldAt (by omega)).bind
  intro _ _
  apply (ensures_fieldAt (by omega)).bind
  intro _ _
  apply (ensures_fieldAt (by omega)).bind
  intro _ _
  trivial

theorem ensures_readKey {off : Nat} (h : off + 17 ≤ b.length) : Ensures (fun _ => True) (readKey b off) := by
  rw [readKey]
  apply (ensures_fieldAt (by omega)).bind
  intro _ _
  apply (ensures_fieldAt (by omega)).bind
  intro _ _
  apply (ensures_fieldAt (by omega)).bind
  intro _ _
  trivial

theorem ensures_parseLeafItems (b : Bytes) (n : Nat) : Ensures (fun _ => True) (parseLeafItems b n) := by
  rw [parseLeafItems, mapM_eq_ok (g := itemDesc b)]
  · trivial
  · intro i hi
    have hfit := List.mem_takeWhile_imp hi
    rw [decide_eq_true_eq] at hfit
    exact if_pos hfit

theorem ensures_itemData (it : ItemDesc) (b : Bytes) : Ensures (fun _ => True) (it.data b) := by
  rw [ItemDesc.data]
  by_cases hcut : b.length < nodeHdrSize + it.dataOff + it.dataSize
  · rw [if_pos hcut]
    trivial
  · rw [if_neg hcut]
    exact (ensures_slice (by omega) (by omega)).mono fun _ _ => trivial

theorem ensures_chooseChild (b : Bytes) (want : Key) (left i chosen : Nat) :
    Ensures (fun _ => True) (chooseChild b want left i chosen) := by
  induction left generalizing i chosen with
  | zero => trivial
  | succ left ih =>
    have hsz : keyPtrSize = 33 := rfl
    rw [chooseChild]
    by_cases hcut : b.length < ptrOff i + keyPtrSize
    · rw [if_pos hcut]
      trivial
    rw [if_neg hcut]
    apply (ensures_readKey (by omega)).bind
    intro k _
    by_cases hle : compareKeys k want.objID want.typ want.offset ≤ 0
    · rw [if_pos hle]
      apply (ensures_fieldAt (by omega)).bind
      intro child _
      exact ih _ _
    · rw [if_neg hle]
      trivial

theorem ensures_searchFrom (ho : Sized ns o) (hns : nodeHdrSize ≤ ns) (want : Key) (d : Nat)
    (seen : List Nat) (prevLevel : Option Nat) (a : Nat) :
    Ensures (fun _ => True) ((searchFrom want d seen prevLevel a).run o) := by
  induction d generalizing seen prevLevel a with
  | zero => trivial
  | succ d ih =>
    rw [searchFrom]
    by_cases hseen : a ∈ seen
    · rw [if_pos hseen]
      trivial
    rw [if_neg hseen]
    apply Ask.ensures_bind (ensures_readNode ho a)
    intro buf hbuf
    apply ensures_lift (ensures_readHeader (hbuf ▸ hns))
    intro hdr _
    split_ifs with hlevel hleaf
    · trivial
    · apply ensures_lift (ensures_parseLeafItems buf hdr.nItems)
      intro items _
      cases items.find? fun it => decide (it.k = want) <;> trivial
    · apply ensures_lift (ensures_chooseChild buf want hdr.nItems 0 0)
      intro chosen _
      split_ifs
      · trivial
      · exact ih _ _ _

theorem ensures_prefixChildren (b : Bytes) (objID typ left i : Nat) (children : List Nat) :
    Ensures (fun _ => True) (prefixChildren b objID typ left i children) := by
  induction left generalizing i children with
  | zero => trivial
  | succ left ih =>
    have hsz : keyPtrSize = 33 := rfl
    rw [prefixChildren]
    by_cases hcut : b.length < ptrOff i + keyPtrSize
    · rw [if_pos hcut]
      trivial
    rw [if_neg hcut]
    apply (ensures_readKey (by omega)).bind
    intro k _
    by_cases hpast : objID < k.objID ∨ k.objID = objID ∧ typ < k.typ
    · rw [if_pos hpast]
      trivial
    · rw [if_neg hpast]
      apply (ensures_fieldAt (by omega)).bind
      intro child _
      exact ih _ _

section Walk

variable {α : Type} {visit : α → Bytes → ItemDesc → Go (α × Bool)} {objID typ : Nat}

theorem ensures_visitItems (hvisit : ∀ acc it, InBounds (visit acc b it)) (items : List ItemDesc)
    (acc : α) : Ensures (fun _ => True) (visitItems visit objID typ b items acc) := by
  induction items generalizing acc with
  | nil => trivial
  | cons it items ih =>
    rw [visitItems]
    by_cases hmatch : it.k.objID = objID ∧ it.k.typ = typ
    · rw [if_pos hmatch]
      apply (ensures_of_inBounds (hvisit acc it)).bind
      intro r _
      split_ifs
      · exact ih r.1
      · trivial
    · rw [if_neg hmatch]
      exact ih acc

theorem ensures_walkPrefixFrom (ho : Sized ns o) (hns : nodeHdrSize ≤ ns)
    (hvisit : ∀ acc b it, InBounds (visit acc b it)) (fuel : Nat) (stack : List (Nat × Nat))
    (seen : List Nat) (acc : α) :
    Ensures (fun _ => True) ((walkPrefixFrom visit objID typ fuel stack seen acc).run o) := by
  induction fuel generalizing stack seen acc with
  | zero =>
    cases stack with
    | nil =>
      rw [walkPrefixFrom]
      trivial
    | cons top stack =>
      rw [walkPrefixFrom]
      split_ifs <;> trivial
  | succ fuel ih =>
    cases stack with
    | nil =>
      rw [walkPrefixFrom]
      trivial
    | cons top stack =>
      rw [walkPrefixFrom]
      split_ifs with hdeep hseen
      · trivial
      · trivial
      apply Ask.ensures_bind (ensures_readNode ho top.1)
      intro buf hbuf
      apply ensures_lift (ensures_readHeader (hbuf ▸ hns))
      intro hdr _
      split_ifs with hleaf
      · apply ensures_lift (ensures_parseLeafItems buf hdr.nItems)
        intro items _
        apply ensures_lift (ensures_visitItems (fun acc it => hvisit acc buf it) items acc)
        intro r _
        split_ifs
        · exact ih _ _ _
        · trivial
      · apply ensures_lift (ensures_prefixChildren buf objID typ hdr.nItems 0 [])
        intro children _
        exact ih _ _ _

end Walk

theorem ensures_collectPrefixItems (ho : Sized ns o) (hns : nodeHdrSize ≤ ns) (root objID typ : Nat) :
    Ensures (fun _ => True) ((collectPrefixItems root objID typ).run o) := by
  have hvisit : ∀ out b it, InBounds (collectItem out b it) := by
    intro out b it
    apply Ensures.inBounds (P := fun _ => True)
    exact (ensures_itemData it b).bind fun _ _ => trivial
  rw [collectPrefixItems]
  apply Ask.ensures_bind (ensures_walkPrefixFrom ho hns hvisit _ _ _ _)
  intro out _
  split_ifs <;> trivial

/-! ## 3. Inodes and directories -/

theorem ensures_searchData (ho : Sized ns o) (hns : nodeHdrSize ≤ ns) (root : Nat) (want : Key) :
    Ensures (fun _ => True) ((searchData root want).run o) := by
  rw [searchData]
  apply Ask.ensures_bind (ensures_searchFrom ho hns want _ _ _ _)
  intro r _
  exact ensures_itemData r.2 r.1

/-- The size of an inode is a 64-bit word. -/
theorem ensures_readInode (ho : Sized ns o) (hns : nodeHdrSize ≤ ns) (root ino : Nat) :
    Ensures (fun i => i.size < 2 ^ 64) ((readInode root ino).run o) := by
  have hsz : inodeItemSize = 0xA0 := rfl
  rw [readInode]
  apply Ask.ensures_bind (Ask.ensures_mapErr (ensures_searchData ho hns root _))
  intro d _
  split_ifs with hshort
  · trivial
  have hfits : ∀ i w, i + w ≤ inodeItemSize → i + w ≤ d.length := by omega
  apply ensures_lift (ensures_fieldAt (hfits inodeOffSize 8 (by decide)))
  intro size hsize
  apply ensures_lift (ensures_fieldAt (hfits inodeOffNLink 4 (by decide)))
  intro nlink _
  apply ensures_lift (ensures_fieldAt (hfits inodeOffMode 4 (by decide)))
  intro mode _
  change size < 2 ^ 64
  rw [hsize]
  exact leAt_lt 8 inodeOffSize d

theorem ensures_parseDirItems (d : Bytes) (name : Name) :
    Ensures (fun _ => True) (parseDirItems d name) := by
  rw [raw_parseDirItems]
  cases (parseDirEntries d.length d).find? fun e => decide (e.name = name) <;> trivial

theorem ensures_findEntry (name : Name) (items : List (Key × Bytes)) :
    Ensures (fun _ => True) (findEntry name items) := by
  induction items with
  | nil => trivial
  | cons e items ih =>
    rw [findEntry]
    apply (ensures_parseDirItems e.2 name).attempt.bind
    intro r _
    cases r with
    | ok r => trivial
    | error e => exact ih

theorem ensures_lookupIndexed (ho : Sized ns o) (hns : nodeHdrSize ≤ ns) (root dirIno : Nat)
    (name : Name) : Ensures (fun _ => True) ((lookupIndexed root dirIno name).run o) := by
  rw [lookupIndexed]
  apply Ask.ensures_bind (Ask.ensures_attempt (ensures_collectPrefixItems ho hns root _ _))
  intro r _
  cases r with
  | error e => trivial
  | ok items =>
    apply ensures_lift (ensures_findEntry name items)
    intro r _
    cases r <;> trivial

theorem ensures_lookupDirEntry (ho : Sized ns o) (hns : nodeHdrSize ≤ ns) (root dirIno : Nat)
    (name : Name) : Ensures (fun _ => True) ((lookupDirEntry root dirIno name).run o) := by
  rw [lookupDirEntry]
  apply Ask.ensures_bind (Ask.ensures_attempt (ensures_searchData ho hns root _))
  intro r _
  cases r with
  | error e => exact ensures_lookupIndexed ho hns root dirIno name
  | ok d =>
    apply ensures_lift (ensures_parseDirItems d name).attempt
    intro r _
    cases r with
    | ok r => trivial
    | error e => exact ensures_lookupIndexed ho hns root dirIno name

theorem ensures_walkPath (ho : Sized ns o) (hns : nodeHdrSize ≤ ns) (root ino : Nat) (p : Path) :
    Ensures (fun _ => True) ((walkPath root ino p).run o) := by
  induction p generalizing ino with
  | nil => trivial
  | cons name p ih =>
    rw [walkPath]
    apply Ask.ensures_bind (ensures_lookupDirEntry ho hns root ino name)
    intro r _
    exact ih r.1

theorem ensures_pathLookup (ho : Sized ns o) (hns : nodeHdrSize ≤ ns) (root : Nat) (p : Path) :
    Ensures (fun i => i.size < 2 ^ 64) ((pathLookup root p).run o) := by
  rw [pathLookup]
  split_ifs
  · exact ensures_readInode ho hns root _
  apply Ask.ensures_bind (Ask.ensures_mapErr (ensures_walkPath ho hns root _ p))
  intro ino _
  exact Ask.ensures_mapErr (ensures_readInode ho hns root ino)

theorem ensures_readDir (ho : Sized ns o) (hns : nodeHdrSize ≤ ns) (root dirIno : Nat) :
    Ensures (fun _ => True) ((readDir root dirIno).run o) := by
  rw [readDir]
  apply Ask.ensures_bind (Ask.ensures_attempt (ensures_collectPrefixItems ho hns root _ _))
  intro r _
  cases r with
  | error e => trivial
  | ok items =>
    apply Ensures.foldlM (I := fun _ => True) trivial
    intro entries e _ _
    rw [raw_parseDirItemsAll]
    trivial

/-! ## 4. File data -/

variable {dec : Decoders} {sb : Superblock} {dev : Int}

theorem makeBytes_eq_ok {x : Nat} (hx : x < 2 ^ 64) (h : makeBytes (int64 x) dev = .ok b) :
    x < 2 ^ 63 ∧ b.length = x := by
  unfold makeBytes int64 at h
  by_cases hsmall : x < 2 ^ 63
  · rw [if_pos hsmall] at h
    split_ifs at h
    cases h
    simp only [zeros, List.length_replicate, Int.toNat_natCast]
    exact ⟨hsmall, trivial⟩
  · rw [if_neg hsmall, if_pos (Or.inl (by omega))] at h
    cases h

theorem checkBounds_eq_ok {off n len : Nat} (hoff : off < 2 ^ 64) (hn : n < 2 ^ 64) {u : Unit}
    (h : checkBounds (int64 off) (int64 n) len = .ok u) :
    off + n ≤ len ∧ off < 2 ^ 63 ∧ n < 2 ^ 63 := by
  unfold checkBounds int64 at h
  split_ifs at h <;> omega

theorem ensures_decompressExtent (src : Bytes) (compression ramBytes : Nat) :
    Ensures (fun _ => True) (decompressExtent dec src compression ramBytes) := by
  rw [decompressExtent]
  split_ifs
  · trivial
  · exact (ensures_ofExcept _).mono fun _ _ => trivial
  · rw [raw_decompressLzo]
    exact (ensures_ofExcept _).mono fun _ _ => trivial
  · exact (ensures_ofExcept _).mono fun _ _ => trivial
  · trivial

theorem ensures_inlineBytes (num fileOffset remaining : Nat) (h : extDataOffType < d.length) :
    Ensures (fun b => b.length ≤ remaining) (inlineBytes dec num fileOffset remaining d) := by
  have hfits : ∀ i w, i + w ≤ extDataHdrSize → i + w ≤ d.length := by
    intro i w hw
    have hsz : extDataHdrSize = extDataOffType + 1 := rfl
    omega
  rw [inlineBytes]
  apply (ensures_fieldAt (hfits extDataOffCompression 1 (by decide))).bind
  intro compression _
  apply (ensures_slice (hfits extDataHdrSize 0 (le_refl _)) (le_refl _)).bind
  intro rawInline _
  apply (ensures_fieldAt (hfits extDataOffRamBytes 8 (by decide))).bind
  intro ram _
  apply (ensures_decompressExtent rawInline compression _).mapErr.bind
  intro inlineData _
  apply (ensures_slice (Nat.zero_le _) (Nat.min_le_left _ _)).mono
  intro b hb
  rw [hb, Nat.sub_zero]
  exact Nat.min_le_right _ _

/-- A field of a regular extent item is a word. -/
theorem ensures_regularField {S : Nat → Prop} {off w : Nat} (h : extDataRegularSize ≤ d.length)
    (hoff : off + w ≤ extDataRegularSize) (hS : S (leAt w off d)) : Ensures S (field w off d) := by
  rw [field, fieldAt_of_le (by omega)]
  exact hS

theorem ensures_compressedBytes (ho : Sized ns o) {num fileOffset numBytes : Nat}
    (h : extDataRegularSize ≤ d.length) (hnum : numBytes < 2 ^ 64) :
    Ensures (fun b => b.length = numBytes)
      ((compressedBytes dec sb dev num fileOffset numBytes d).run o) := by
  have hword : ∀ off, leAt 8 off d < 2 ^ 64 := fun off => leAt_lt 8 off d
  rw [compressedBytes]
  apply ensures_lift (ensures_regularField (S := fun _ => True) h (by decide) trivial)
  intro compression _
  apply ensures_lift (ensures_regularField (S := fun _ => True) h (by decide) trivial)
  intro diskBytenr _
  apply ensures_lift (ensures_regularField (S := fun _ => True) h (by decide) trivial)
  intro diskNumBytes _
  apply ensures_lift (ensures_regularField (S := fun n => n < 2 ^ 64) h (by decide) (hword _))
  intro extOffset hext
  apply ensures_wrapping
  intro buf _
  apply ensures_wrapping
  intro phys _
  apply Ask.ensures_bind (Ask.ensures_mapErr (ensures_readBytes ho phys buf.length))
  intro compressed _
  apply ensures_lift (ensures_regularField (S := fun _ => True) h (by decide) trivial)
  intro ram _
  apply ensures_lift (ensures_decompressExtent compressed compression _).mapErr
  intro plain _
  apply ensures_wrapping
  intro u hchk
  obtain ⟨hle, hext', hnum'⟩ := checkBounds_eq_ok hext hnum hchk
  have hsum : word (extOffset + numBytes) = extOffset + numBytes := Nat.mod_eq_of_lt (by omega)
  rw [hsum]
  apply (ensures_slice (by omega) hle).mono
  intro b hb
  omega

theorem sub64_of_le {a c : Nat} (h : c ≤ a) : sub64 a c = a - c := if_pos h

/-- What the loop over the extents keeps: the output is as long as the file. -/
theorem ensures_readRegular (ho : Sized ns o) {i : InodeItem} {fileOffset : Nat} {acc : Assembled}
    (hsize : i.size < 2 ^ 63) (hlen : acc.out.length = i.size) (hoff : fileOffset < i.size)
    (h : extDataRegularSize ≤ d.length) :
    Ensures (fun acc' => acc'.out.length = i.size)
      ((readRegular dec sb dev i fileOffset d acc).run o) := by
  rw [readRegular, sub64_of_le (le_of_lt hoff)]
  apply ensures_lift (ensures_regularField (S := fun _ => True) h (by decide) trivial)
  intro num _
  dsimp only
  by_cases hover : word (fileOffset + num) < fileOffset ∨ fileOffset < acc.prevEnd
  · rw [if_pos hover]
    trivial
  rw [if_neg hover]
  apply ensures_lift (ensures_regularField (S := fun _ => True) h (by decide) trivial)
  intro diskBytenr _
  apply ensures_lift (ensures_regularField (S := fun _ => True) h (by decide) trivial)
  intro extOffset _
  apply ensures_lift (ensures_regularField (S := fun _ => True) h (by decide) trivial)
  intro compression _
  by_cases hsparse : diskBytenr = 0
  · rw [if_pos hsparse]
    exact hlen
  rw [if_neg hsparse]
  generalize hnb : min num (i.size - fileOffset) = numBytes
  have hin : fileOffset + numBytes ≤ i.size := by omega
  have hstop : word (fileOffset + numBytes) = fileOffset + numBytes := Nat.mod_eq_of_lt (by omega)
  rw [hstop]
  apply ensures_wrapping
  intro u _
  split_ifs with hplain
  · apply ensures_wrapping
    intro phys _
    apply ensures_lift (ensures_slice (by omega) (by omega))
    intro dst hdst
    apply Ask.ensures_bind (Ask.ensures_mapErr (ensures_readBytes ho phys dst.length))
    intro b hb
    change (putAt fileOffset b acc.out).length = i.size
    rw [length_putAt (by omega), hlen]
  · apply Ask.ensures_bind (ensures_compressedBytes ho h (by omega))
    intro b hb
    apply ensures_lift (ensures_slice (by omega) (by omega))
    intro dst hdst
    change (putAt fileOffset (b.take dst.length) acc.out).length = i.size
    rw [length_putAt (by rw [List.length_take]; omega), hlen]

theorem ensures_readInline {i : InodeItem} {fileOffset : Nat} {acc : Assembled}
    (hlen : acc.out.length = i.size) (hoff : fileOffset < i.size) (h : extDataOffType < d.length) :
    Ensures (fun acc' => acc'.out.length = i.size) (readInline dec i fileOffset d acc) := by
  rw [readInline, sub64_of_le (le_of_lt hoff)]
  apply (ensures_inlineBytes i.num fileOffset _ h).bind
  intro b hb
  apply (ensures_ofExcept _).bind
  intro u _
  apply (ensures_copyAt (by omega)).bind
  intro out hout
  change out.length = i.size
  omega

theorem ensures_readExtent (ho : Sized ns o) {i : InodeItem} {acc : Assembled} (e : Key × Bytes)
    (hsize : i.size < 2 ^ 63) (hlen : acc.out.length = i.size) :
    Ensures (fun acc' => acc'.out.length = i.size) ((readExtent dec sb dev i acc e).run o) := by
  rw [readExtent]
  by_cases hbehind : i.size ≤ e.1.offset
  · rw [if_pos hbehind]
    exact hlen
  by_cases hshort : e.2.length ≤ extDataOffType
  · rw [if_neg hbehind, if_pos hshort]
    exact hlen
  rw [if_neg hbehind, if_neg hshort]
  apply ensures_lift (ensures_fieldAt (by omega))
  intro typ _
  split_ifs with hinline hregular hcut
  · exact ensures_readInline hlen (by omega) (by omega)
  · exact hlen
  · exact ensures_readRegular ho hsize hlen (by omega) (by omega)
  · exact hlen

theorem ensures_readFileData (ho : Sized ns o) (hns : nodeHdrSize ≤ ns) (root : Nat) {i : InodeItem}
    (hsize : i.size < 2 ^ 64) :
    Ensures (fun b => b.length = i.size) ((readFileData dec sb dev root i).run o) := by
  rw [readFileData]
  split_ifs with hzero
  · exact hzero.symm
  apply Ask.ensures_bind (Ask.ensures_mapErr (ensures_collectPrefixItems ho hns root _ _))
  intro items _
  apply ensures_wrapping
  intro out hout
  obtain ⟨hsmall, hlen⟩ := makeBytes_eq_ok hsize hout
  apply Ask.ensures_bind (P := fun acc : Assembled => acc.out.length = i.size)
  · apply Ask.ensures_foldlM (P := fun acc : Assembled => acc.out.length = i.size)
    · exact hlen
    · intro acc e _ hacc
      exact ensures_readExtent ho e hsmall hacc
  · intro acc hacc
    exact hacc

/-! ## 5. Positional reads -/

theorem ensures_copyWindow {dst src : Bytes} {off srcOff : Nat} (hdst : off + dst.length < 2 ^ 64)
    (hsrc : srcOff + src.length < 2 ^ 64) :
    Ensures (fun r => r.length = dst.length) (copyWindow dst off srcOff src) := by
  have hhi : word (off + dst.length) = off + dst.length := Nat.mod_eq_of_lt hdst
  have hend : word (srcOff + src.length) = srcOff + src.length := Nat.mod_eq_of_lt hsrc
  rw [copyWindow, hhi, hend]
  split_ifs with hempty
  · rfl
  rw [sub64_of_le (by omega), sub64_of_le (by omega), sub64_of_le (by omega), sub64_of_le (by omega)]
  apply (ensures_slice (by omega) (by omega)).bind
  intro window _
  apply (ensures_slice (by omega) (by omega)).bind
  intro b hb
  exact ensures_copyAt (by omega)

theorem ensures_fillRegular (ho : Sized ns o) {f : BtrfsFile} {off fileOffset : Nat} {dst : Bytes}
    (hsize : f.size < 2 ^ 64) (hin : off + dst.length ≤ f.size) (hoff : fileOffset < off + dst.length)
    (h : extDataRegularSize ≤ d.length) :
    Ensures (fun r => r.length = dst.length)
      ((fillRegular dec sb dev f off dst fileOffset d).run o) := by
  have hhi : word (off + dst.length) = off + dst.length := Nat.mod_eq_of_lt (by omega)
  rw [fillRegular, sub64_of_le (by omega), hhi]
  apply ensures_lift (ensures_regularField (S := fun _ => True) h (by decide) trivial)
  intro num _
  dsimp only
  generalize hnb : min num (f.size - fileOffset) = numBytes
  have hstop : word (fileOffset + numBytes) = fileOffset + numBytes := Nat.mod_eq_of_lt (by omega)
  rw [hstop]
  split_ifs with hbefore
  · rfl
  apply ensures_lift (ensures_regularField (S := fun _ => True) h (by decide) trivial)
  intro diskBytenr _
  split_ifs with hsparse
  · rfl
  apply ensures_lift (ensures_regularField (S := fun _ => True) h (by decide) trivial)
  intro extOffset _
  apply ensures_lift (ensures_regularField (S := fun _ => True) h (by decide) trivial)
  intro compression _
  split_ifs with hplain
  · apply ensures_wrapping
    intro phys _
    rw [sub64_of_le (by omega), sub64_of_le (by omega)]
    apply ensures_lift (ensures_slice (by omega) (by omega))
    intro window hwindow
    apply Ask.ensures_bind (Ask.ensures_mapErr (ensures_readBytes ho phys window.length))
    intro b hb
    exact length_putAt (by omega)
  · apply Ask.ensures_bind (ensures_compressedBytes ho h (by omega))
    intro b hb
    exact ensures_copyWindow (by omega) (by omega)

theorem ensures_fillExtent (ho : Sized ns o) {f : BtrfsFile} {off : Nat} {dst : Bytes}
    (e : Key × Bytes) (hsize : f.size < 2 ^ 64) (hin : off + dst.length ≤ f.size)
    (hoff : e.1.offset < off + dst.length) :
    Ensures (fun r => r.length = dst.length) ((fillExtent dec sb dev f off dst e).run o) := by
  rw [fillExtent]
  by_cases hbehind : f.size ≤ e.1.offset
  · rw [if_pos hbehind]
    rfl
  by_cases hshort : e.2.length ≤ extDataOffType
  · rw [if_neg hbehind, if_pos hshort]
    rfl
  rw [if_neg hbehind, if_neg hshort]
  apply ensures_lift (ensures_fieldAt (by omega))
  intro typ _
  split_ifs with hinline hregular hcut
  · rw [sub64_of_le (by omega)]
    apply ensures_lift (ensures_inlineBytes f.num e.1.offset _ (by omega))
    intro b hb
    exact ensures_copyWindow (by omega) (by omega)
  · rfl
  · exact ensures_fillRegular ho hsize hin hoff (by omega)
  · rfl

theorem ensures_fill (ho : Sized ns o) {f : BtrfsFile} {off : Nat} (hsize : f.size < 2 ^ 64)
    (items : List (Key × Bytes)) (dst : Bytes) (hin : off + dst.length ≤ f.size) :
    Ensures (fun r => r.length = dst.length) ((fill dec sb dev f off dst items).run o) := by
  induction items generalizing dst with
  | nil => rfl
  | cons e items ih =>
    have hhi : word (off + dst.length) = off + dst.length := Nat.mod_eq_of_lt (by omega)
    rw [fill, hhi]
    split_ifs with hbehind
    · rfl
    apply Ask.ensures_bind (ensures_fillExtent ho e hsize hin (by omega))
    intro dst' hdst'
    apply (ih dst' (by omega)).mono
    intro r hr
    omega

theorem ensures_readAt (ho : Sized ns o) {f : BtrfsFile} {p : Bytes} {off : Int}
    (hsize : f.size < 2 ^ 64) (hp : p.length < 2 ^ 63) (hoff : off < 2 ^ 63) :
    Ensures (fun r => r.1.length ≤ p.length) ((readAt dec sb dev f p off).run o) := by
  rw [readAt]
  by_cases hneg : off < 0
  · rw [if_pos hneg]
    trivial
  by_cases hend : f.size ≤ off.toNat
  · rw [if_neg hneg, if_pos hend]
    exact Nat.zero_le _
  rw [if_neg hneg, if_neg hend]
  have hsum : word (off.toNat + p.length) = off.toNat + p.length := Nat.mod_eq_of_lt (by omega)
  rw [hsum, sub64_of_le (by omega)]
  generalize hw : (if f.size < off.toNat + p.length then f.size - off.toNat else p.length) = want
  have hwant : want ≤ p.length ∧ off.toNat + want ≤ f.size := by
    split_ifs at hw <;> omega
  apply ensures_lift (ensures_slice (Nat.zero_le _) hwant.1)
  intro dst hdst
  apply Ask.ensures_bind (ensures_fill ho hsize f.items _ (by rw [zeros, List.length_replicate]; omega))
  intro r hr
  rw [zeros, List.length_replicate] at hr
  change r.length ≤ p.length
  omega

theorem ensures_checkExtents (ino prevEnd : Nat) (items : List (Key × Bytes)) :
    Ensures (fun _ => True) (checkExtents ino prevEnd items) := by
  induction items generalizing prevEnd with
  | nil => trivial
  | cons e items ih =>
    rw [checkExtents]
    by_cases hshort : e.2.length ≤ extDataOffType
    · rw [if_pos hshort]
      exact ih prevEnd
    rw [if_neg hshort]
    apply (ensures_fieldAt (by omega)).bind
    intro typ _
    by_cases hskip : typ ≠ extentDataRegular ∨ e.2.length < extDataRegularSize
    · rw [if_pos hskip]
      exact ih prevEnd
    rw [if_neg hskip]
    have hsz : extDataRegularSize ≤ e.2.length := by
      by_contra hlt
      exact hskip (Or.inr (Nat.not_le.mp hlt))
    apply (ensures_regularField (S := fun _ => True) hsz (by decide) trivial).bind
    intro num _
    dsimp only
    split_ifs
    · trivial
    · exact ih _

/-- An opened file has a 64-bit size. -/
theorem ensures_openBtrfsFile (ho : Sized ns o) (hns : nodeHdrSize ≤ ns) (root : Nat) (p : Path) :
    Ensures (fun f => f.size < 2 ^ 64) ((openBtrfsFile root p).run o) := by
  rw [openBtrfsFile]
  apply Ask.ensures_bind (ensures_pathLookup ho hns root p)
  intro i hi
  generalize hs : (if 2 ^ 62 < i.size then 2 ^ 62 else i.size) = size
  have hsize : size < 2 ^ 64 := by
    split_ifs at hs <;> omega
  dsimp only
  split_ifs
  · trivial
  · exact hsize
  apply Ask.ensures_bind (Ask.ensures_mapErr (ensures_collectPrefixItems ho hns root _ _))
  intro items _
  apply ensures_lift (ensures_checkExtents i.num 0 items)
  intro _ _
  exact hsize

/-! ## 6. The read path -/

theorem wrapping_eq_ok {α : Type} {format : String} {args : List ErrArg} {r : Except Err α} {a : α}
    (h : wrapping format args r = .ok a) : r = .ok a := by
  cases r with
  | ok b => exact h
  | error e => cases h

theorem answers_sized (r : ReaderAt) (sb : Superblock) : Sized sb.nodeSize (answers r sb) := by
  constructor
  · intro a b h
    change readNodeUncached r sb a = .ok b at h
    rw [readNodeUncached] at h
    cases hphys : sb.physAddr a with
    | error e => rw [hphys] at h; cases h
    | ok phys =>
      cases hbuf : makeBytes sb.nodeSize maxNodeSize with
      | error e => rw [hphys, hbuf] at h; cases h
      | ok buf =>
        rw [hphys, hbuf] at h
        have hlen : buf.length = sb.nodeSize := by
          unfold makeBytes at hbuf
          split_ifs at hbuf
          cases hbuf
          simp only [zeros, List.length_replicate, Int.toNat_natCast]
        rw [← hlen]
        exact r.length_eq (wrapping_eq_ok h)
  · intro off n b h
    exact r.length_eq h

theorem itemsThatFit_nonneg (b : Bytes) (n stride : Nat) : 0 ≤ itemsThatFit b n stride := by
  unfold itemsThatFit
  dsimp only
  split_ifs <;> omega

/-- None of the readers indexes out of range, whatever it is given.  Sizes and offsets are those
    their types hold. -/
structure ReadsInBounds (dec : Decoders) (sb : Superblock) (dev : Int) (o : Question → Answer) :
    Prop where
  parseLeafItems : ∀ b n, 0 ≤ itemsThatFit b n itemSize ∧ InBounds (parseLeafItems b n)
  itemData : ∀ (it : ItemDesc) b, InBounds (it.data b)
  searchTree : ∀ root want, InBounds ((searchTree root want).run o)
  walkPrefixLeaves : ∀ {α : Type} (visit : α → Bytes → ItemDesc → Go (α × Bool)) objID typ root acc,
    (∀ acc b it, InBounds (visit acc b it)) →
      InBounds ((walkPrefixLeaves visit objID typ root acc).run o)
  parseDirItems : ∀ d name, InBounds (parseDirItems d name)
  parseDirItemsAll : ∀ d, InBounds (parseDirItemsAll d)
  parseXattrItem : ∀ d, InBounds (parseXattrItem d)
  parseInodeRefEntries : ∀ d, InBounds (parseInodeRefEntries d)
  parseSysChunkArray : ∀ data ourDevID, InBounds (parseSysChunkArray data ourDevID)
  readFileData : ∀ root (i : InodeItem), i.size < 2 ^ 64 →
    InBounds ((readFileData dec sb dev root i).run o)
  readAt : ∀ (f : BtrfsFile) (p : Bytes) (off : Int), f.size < 2 ^ 64 → p.length < 2 ^ 63 →
    off < 2 ^ 63 → InBounds ((readAt dec sb dev f p off).run o)

/-- **The read path never indexes out of range.** -/
theorem readPath_inBounds (dec : Decoders) (r : ReaderAt) (sb : Superblock) (dev : Int)
    (hns : nodeHdrSize ≤ sb.nodeSize) : ReadsInBounds dec sb dev (answers r sb) := by
  have ho := answers_sized r sb
  constructor
  case parseLeafItems =>
    exact fun b n => ⟨itemsThatFit_nonneg b n itemSize, (ensures_parseLeafItems b n).inBounds⟩
  case itemData => exact fun it b => (ensures_itemData it b).inBounds
  case searchTree =>
    exact fun root want => (ensures_searchFrom ho hns want _ _ _ root).inBounds
  case walkPrefixLeaves =>
    intro α visit objID typ root acc hvisit
    exact (ensures_walkPrefixFrom ho hns hvisit _ _ _ acc).inBounds
  case parseDirItems => exact fun d name => (ensures_parseDirItems d name).inBounds
  case parseDirItemsAll =>
    intro d
    rw [raw_parseDirItemsAll]
    exact nofun
  case parseXattrItem =>
    intro d
    rw [raw_parseXattrItem]
    exact nofun
  case parseInodeRefEntries =>
    intro d
    rw [raw_parseInodeRefEntries]
    exact nofun
  case parseSysChunkArray =>
    exact fun data ourDevID => (sysChunksFrom_ensures ourDevID [] 0).inBounds
  case readFileData =>
    exact fun root i hsize => (ensures_readFileData ho hns root hsize).inBounds
  case readAt =>
    exact fun f p off hsize hp hoff => (ensures_readAt ho hsize hp hoff).inBounds

/-- A device on which every read of `n` bytes gives `n` times the byte `0xFF`. -/
def hostileReader : ReaderAt where
  readAt _ n := .ok (List.replicate n 0xFF)
  length_eq h := by
    cases h
    exact List.length_replicate

def hostileSb : Superblock :=
  ⟨4096, 4096, 2 ^ 30, 0x100000, 0x100000, 1, [⟨0, 2 ^ 64, 0, 1⟩], 0, 0⟩

theorem readPath_inBounds_hostile :
    nodeHdrSize ≤ hostileSb.nodeSize ∧
      ReadsInBounds literalDecoders hostileSb hardSizeCeiling (answers hostileReader hostileSb) :=
  ⟨by decide, readPath_inBounds literalDecoders hostileReader hostileSb hardSizeCeiling (by decide)⟩

/-! ## 7. Public reads -/

/-- The arguments fit their types. -/
def ReadCall.Typed : ReadCall → Prop
  | .readAt f p off => f.size < 2 ^ 64 ∧ p.length < 2 ^ 63 ∧ off < 2 ^ 63
  | _ => True

theorem ensures_prog {dec : Decoders} {sb : Superblock} {c : ReadCall} (ho : Sized ns o)
    (hns : nodeHdrSize ≤ ns) (root : Nat) (h : c.Typed) :
    Ensures (fun _ => True) ((c.prog dec sb root).run o) := by
  have hlook := ensures_pathLookup ho hns root
  have hreply : ∀ {α} {x : ReadM α} {g : α → Reply}, Ensures (fun _ => True) (x.run o) →
      Ensures (fun _ => True) ((x >>= fun a => pure (g a)).run o) :=
    fun hx => Ask.ensures_bind hx fun _ _ => trivial
  cases c with
  | stat p => exact Ask.ensures_bind (hlook p) fun _ _ => trivial
  | openFile p => exact Ask.ensures_bind (ensures_openBtrfsFile ho hns root p) fun _ _ => trivial
  | readAt f p off => exact Ask.ensures_bind (ensures_readAt ho h.1 h.2.1 h.2.2) fun _ _ => trivial
  | readFile p =>
    refine hreply (Ask.ensures_bind (hlook p) fun i hi => ?_)
    split_ifs
    · trivial
    · exact (ensures_readFileData ho hns root hi).mono fun _ _ => trivial
  | listDir p =>
    refine hreply (Ask.ensures_bind (hlook p) fun i _ => ?_)
    split_ifs
    · trivial
    · exact ensures_readDir ho hns root i.num
  | readLink p =>
    refine hreply (Ask.ensures_bind (hlook p) fun i hi => ?_)
    split_ifs
    · trivial
    · exact (Ask.ensures_mapErr (ensures_readFileData ho hns root hi)).mono fun _ _ => trivial
  | getXattr p name =>
    refine hreply (Ask.ensures_bind (hlook p) fun i _ => ?_)
    apply Ask.ensures_bind (Ask.ensures_mapErr (ensures_searchData ho hns root _))
    intro d _
    rw [raw_parseXattrItem]
    refine ensures_lift (P := fun _ => True) trivial ?_
    rintro (_ | r) _
    · trivial
    · dsimp only
      split_ifs <;> trivial
  | xattrs p =>
    refine hreply (Ask.ensures_bind (hlook p) fun i _ => ?_)
    apply Ask.ensures_bind (Ask.ensures_attempt (ensures_collectPrefixItems ho hns root _ _))
    rintro (e | items) _
    · dsimp only
      split_ifs <;> trivial
    · apply Ensures.foldlM (I := fun _ => True) trivial
      intro _ _ _ _
      rw [raw_parseXattrItem]
      trivial

/-- **No public read indexes out of range**, on any device, through any sound cache. -/
theorem publicRead_inBounds (dec : Decoders) {fs : OpenFs} (hfs : fs.Sound)
    (hns : nodeHdrSize ≤ fs.store.sb.nodeSize) (rd : Read) (h : rd.call.Typed) :
    InBounds (fs.read dec rd).1 := by
  rw [(hfs.read rd).1]
  exact (ensures_prog (answers_sized _ _) hns _ h).inBounds

theorem publicRead_inBounds_hostile : InBounds ((⟨⟨hostileReader, hostileSb, ⟨[], 4096⟩, 0⟩, none⟩ :
    OpenFs).read literalDecoders ⟨none, .readAt ⟨257, 9, []⟩ [0, 0] 8⟩).1 :=
  publicRead_inBounds _ (by rintro c ⟨⟩) (by decide) _ ⟨by decide, by decide, by decide⟩

end Btrfs.Raw
