/-
  Btrfs/ItemBytes.lean
  ====================
  **Item payloads with checked accesses** — the decoders of `dir.go`, `write.go`, `fs.go`
  and `superblock.go`.

  `Items.lean` decodes payloads by total functions: a field behind the end of a payload is
  read as if there were zeros.  Here every access is checked, and offsets count from the
  start of the payload as the loops of the source count them.  The two agree on every
  payload, so no payload makes a decoder read beyond it.
-/
import Btrfs.LeafBytes
import Btrfs.MultiDev

namespace Btrfs

open Lib

namespace Raw

/-! ## 1. Directory entries -/

/-- Inode and file type of the entry with this name, from `off` on. -/
def dirItemsFrom (d : Bytes) (name : Name) (off : Nat) : Go (Nat × Nat) :=
  if _h : off + dirItemHdrSize ≤ d.length then do
    let childObjID ← fieldAt 8 off d
    let nameLen ← fieldAt 2 (off + 0x1B) d
    let ftype ← fieldAt 1 (off + 0x1D) d
    let nameEnd := off + dirItemHdrSize + nameLen
    if d.length < nameEnd then .error (.err (.sentinel .errNotFound))
    else
      let entName ← slice d (off + dirItemHdrSize) nameEnd
      if entName = name then return (childObjID, ftype)
      else
        let dataLen ← fieldAt 2 (off + 0x19) d
        dirItemsFrom d name (nameEnd + dataLen)
  else .error (.err (.sentinel .errNotFound))
termination_by d.length - off
decreasing_by simp only [dirItemHdrSize] at *; omega

def parseDirItems (d : Bytes) (name : Name) : Go (Nat × Nat) := dirItemsFrom d name 0

/-- The entries from `off` on, behind those already found. -/
def dirItemsAllFrom (d : Bytes) (entries : List DirEntry) (off : Nat) : Go (List DirEntry) :=
  if _h : off + dirItemHdrSize ≤ d.length then do
    let childObjID ← fieldAt 8 off d
    let nameLen ← fieldAt 2 (off + 0x1B) d
    let ftype ← fieldAt 1 (off + 0x1D) d
    let nameEnd := off + dirItemHdrSize + nameLen
    if d.length < nameEnd then return entries
    else
      let name ← slice d (off + dirItemHdrSize) nameEnd
      let entries := if name ∈ dotNames then entries else entries ++ [⟨childObjID, name, ftype⟩]
      let dataLen ← fieldAt 2 (off + 0x19) d
      dirItemsAllFrom d entries (nameEnd + dataLen)
  else return entries
termination_by d.length - off
decreasing_by simp only [dirItemHdrSize] at *; omega

def parseDirItemsAll (d : Bytes) : Go (List DirEntry) := dirItemsAllFrom d [] 0

/-! ## 2. Extended attributes and back references -/

def parseXattrItem (d : Bytes) : Go (Option (Name × Bytes)) :=
  if d.length < dirItemHdrSize then return none
  else do
    let dataLen ← fieldAt 2 0x19 d
    let nameLen ← fieldAt 2 0x1B d
    if d.length < dirItemHdrSize + nameLen + dataLen then return none
    else
      let name ← slice d dirItemHdrSize (dirItemHdrSize + nameLen)
      let value ← slice d (dirItemHdrSize + nameLen) (dirItemHdrSize + nameLen + dataLen)
      return some (name, value)

def inodeRefsFrom (d : Bytes) (out : List InodeRefEntry) (off : Nat) : Go (List InodeRefEntry) :=
  if _h : off + 10 ≤ d.length then do
    let idx ← fieldAt 8 off d
    let nameLen ← fieldAt 2 (off + 8) d
    if d.length < off + 10 + nameLen then return out
    else
      let name ← slice d (off + 10) (off + 10 + nameLen)
      inodeRefsFrom d (out ++ [⟨idx, name⟩]) (off + 10 + nameLen)
  else return out
termination_by d.length - off

def parseInodeRefEntries (d : Bytes) : Go (List InodeRefEntry) := inodeRefsFrom d [] 0

/-! ## 3. The chunk array of the superblock -/

def keySize : Nat := 17

def chunkStripeLen : Nat := 0x10

def chunkSubStripes : Nat := 0x2E

/-- Where a stripe begins in a chunk item. -/
def stripeOff (i : Nat) : Nat := chunkHeaderSize + i * chunkStripeSize

def readStripe (d : Bytes) (i : Nat) : Go ChunkStripe := do
  return ⟨← fieldAt 8 (stripeOff i) d, ← fieldAt 8 (stripeOff i + 8) d⟩

def parseAllStripes (d : Bytes) (numStripes : Nat) : Go (List ChunkStripe) :=
  ((List.range numStripes).takeWhile fun i => decide (stripeOff i + chunkStripeSize ≤ d.length)).mapM
    (readStripe d)

/-- The index of the stripe on this device; without a device id it is the first one. -/
def localIdx (ourDevID : Nat) (stripes : List ChunkStripe) : Option Nat :=
  if ourDevID = 0 then (if stripes.isEmpty then none else some 0)
  else stripes.findIdx? fun s => decide (s.devID = ourDevID)

/-- The chunk whose item begins at `off`, and the number of its stripes. -/
def sysChunkAt (data : Bytes) (ourDevID logAddr off : Nat) : Go (PoolChunk × Nat) := do
  let chunk ← slice data off data.length
  let size ← fieldAt 8 chunkSize chunk
  let numStripes ← fieldAt 2 chunkNumStripes chunk
  if numStripes = 0 then .error (.err (.errorf "btrfs: chunk with 0 stripes" []))
  else
    let profile ← fieldAt 8 chunkType chunk
    let stripeLen ← fieldAt 8 chunkStripeLen chunk
    let subStripes ← fieldAt 2 chunkSubStripes chunk
    let stripes ← parseAllStripes chunk numStripes
    let idx := localIdx ourDevID stripes
    let physOff := ((idx.bind fun i => stripes[i]?).map ChunkStripe.offset).getD 0
    return (⟨⟨logAddr, size, physOff, profile⟩, idx, stripeLen, subStripes, stripes⟩, numStripes)

/-- The loop over keys and chunk items. -/
def sysChunksFrom (data : Bytes) (ourDevID : Nat) (mappings : List PoolChunk) (off : Nat) :
    Go (List PoolChunk) :=
  if _h : off + keySize ≤ data.length then do
    let keyType ← fieldAt 1 (off + 8) data
    let logAddr ← fieldAt 8 (off + 9) data
    if keyType ≠ typeChunkItem then
      .error (.err (.errorf "btrfs: unexpected key type 0x%02X in sys_chunk_array" [.num keyType]))
    else if data.length < off + keySize + chunkHeaderSize + chunkStripeSize then
      .error (.err (.errorf "btrfs: sys_chunk_array truncated" []))
    else
      let (m, numStripes) ← sysChunkAt data ourDevID logAddr (off + keySize)
      sysChunksFrom data ourDevID (mappings ++ [m])
        (off + keySize + (chunkHeaderSize + numStripes * chunkStripeSize))
  else return mappings
termination_by data.length - off
decreasing_by simp only [keySize] at *; omega

def parseSysChunkArray (data : Bytes) (ourDevID : Nat) : Go (List PoolChunk) :=
  sysChunksFrom data ourDevID [] 0

end Raw

/-! ## 4. Agreement with the unchecked decoders -/

variable {d data : Bytes} {off : Nat}

/-- What `parseDirItems` makes of the entry it looked for. -/
def foundEntry : Option DirEntry → Raw.Go (Nat × Nat)
  | some e => .ok (e.inode, e.fileType)
  | none => .error (.err (.sentinel .errNotFound))

theorem raw_dirItemsFrom (name : Name) {fuel : Nat} (hfuel : d.length - off ≤ fuel) :
    Raw.dirItemsFrom d name off =
      foundEntry ((parseDirEntries fuel (d.drop off)).find? fun e => decide (e.name = name)) := by
  induction fuel generalizing off with
  | zero =>
    rw [Raw.dirItemsFrom, dif_neg (by simp only [dirItemHdrSize]; omega), parseDirEntries]
    rfl
  | succ fuel ih =>
    rw [Raw.dirItemsFrom, parseDirEntries]
    simp only [leAt_drop, List.length_drop, List.drop_drop]
    have hsz : dirItemHdrSize = 0x1E := rfl
    by_cases hhdr : off + dirItemHdrSize ≤ d.length
    · rw [dif_pos hhdr, if_neg (by omega), fieldAt_of_le (by omega), Checked.ok_bind,
        fieldAt_of_le (by omega), Checked.ok_bind, fieldAt_of_le (by omega), Checked.ok_bind]
      by_cases hcut : d.length < off + dirItemHdrSize + leAt 2 (off + 0x1B) d
      · rw [if_pos hcut, if_pos (by omega)]
        rfl
      rw [if_neg hcut, if_neg (by omega), slice_of_le (by omega) (by omega), Checked.ok_bind,
        Nat.add_sub_cancel_left, List.find?_cons]
      by_cases hname : (d.drop (off + dirItemHdrSize)).take (leAt 2 (off + 0x1B) d) = name
      · rw [if_pos hname, decide_eq_true hname]
        rfl
      · rw [if_neg hname, decide_eq_false hname, fieldAt_of_le (by omega), Checked.ok_bind,
          ih (by omega)]
        simp only [Nat.add_assoc]
    · rw [dif_neg hhdr, if_pos (by omega)]
      rfl

theorem raw_parseDirItems (d : Bytes) (name : Name) :
    Raw.parseDirItems d name =
      foundEntry ((parseDirEntries d.length d).find? fun e => decide (e.name = name)) :=
  raw_dirItemsFrom name (by omega)

theorem raw_dirItemsAllFrom (entries : List DirEntry) {fuel : Nat} (hfuel : d.length - off ≤ fuel) :
    Raw.dirItemsAllFrom d entries off = .ok (entries ++
      (parseDirEntries fuel (d.drop off)).filter fun e => !decide (e.name ∈ dotNames)) := by
  induction fuel generalizing off entries with
  | zero =>
    rw [Raw.dirItemsAllFrom, dif_neg (by simp only [dirItemHdrSize]; omega), parseDirEntries,
      List.filter_nil, List.append_nil]
    rfl
  | succ fuel ih =>
    rw [Raw.dirItemsAllFrom, parseDirEntries]
    simp only [leAt_drop, List.length_drop, List.drop_drop]
    have hsz : dirItemHdrSize = 0x1E := rfl
    by_cases hhdr : off + dirItemHdrSize ≤ d.length
    · rw [dif_pos hhdr, if_neg (by omega), fieldAt_of_le (by omega), Checked.ok_bind,
        fieldAt_of_le (by omega), Checked.ok_bind, fieldAt_of_le (by omega), Checked.ok_bind]
      by_cases hcut : d.length < off + dirItemHdrSize + leAt 2 (off + 0x1B) d
      · rw [if_pos hcut, if_pos (by omega), List.filter_nil, List.append_nil]
        rfl
      rw [if_neg hcut, if_neg (by omega), slice_of_le (by omega) (by omega), Checked.ok_bind,
        Nat.add_sub_cancel_left, fieldAt_of_le (by omega), Checked.ok_bind, ih _ (by omega),
        List.filter_cons]
      simp only [Nat.add_assoc]
      split_ifs <;> simp_all
    · rw [dif_neg hhdr, if_pos (by omega), List.filter_nil, List.append_nil]
      rfl

theorem raw_parseDirItemsAll (d : Bytes) :
    Raw.parseDirItemsAll d = .ok (parseDirItemsAll d) := by
  rw [Raw.parseDirItemsAll, raw_dirItemsAllFrom [] (le_refl (d.length - 0))]
  rfl

theorem raw_parseXattrItem (d : Bytes) : Raw.parseXattrItem d = .ok (parseXattrItem d) := by
  have hsz : dirItemHdrSize = 0x1E := rfl
  rw [Raw.parseXattrItem, parseXattrItem]
  by_cases hshort : d.length < dirItemHdrSize
  · rw [if_pos hshort, if_pos hshort]
    rfl
  rw [if_neg hshort, if_neg hshort, fieldAt_of_le (by omega), Checked.ok_bind,
    fieldAt_of_le (by omega), Checked.ok_bind]
  by_cases hcut : d.length < dirItemHdrSize + leAt 2 0x1B d + leAt 2 0x19 d
  · rw [if_pos hcut, if_pos hcut]
    rfl
  · rw [if_neg hcut, if_neg hcut, slice_of_le (by omega) (by omega), Checked.ok_bind,
      slice_of_le (by omega) (by omega), Checked.ok_bind, Nat.add_sub_cancel_left,
      Nat.add_sub_cancel_left]
    rfl

theorem raw_inodeRefsFrom (out : List InodeRefEntry) {fuel : Nat} (hfuel : d.length - off ≤ fuel) :
    Raw.inodeRefsFrom d out off = .ok (out ++ parseInodeRefsFrom fuel (d.drop off)) := by
  induction fuel generalizing off out with
  | zero =>
    rw [Raw.inodeRefsFrom, dif_neg (by omega), parseInodeRefsFrom, List.append_nil]
    rfl
  | succ fuel ih =>
    rw [Raw.inodeRefsFrom, parseInodeRefsFrom]
    simp only [leAt_drop, List.length_drop, List.drop_drop, Nat.add_zero]
    by_cases hhdr : off + 10 ≤ d.length
    · rw [dif_pos hhdr, if_neg (by omega), fieldAt_of_le (by omega), Checked.ok_bind,
        fieldAt_of_le (by omega), Checked.ok_bind]
      by_cases hcut : d.length < off + 10 + leAt 2 (off + 8) d
      · rw [if_pos hcut, if_pos (by omega), List.append_nil]
        rfl
      · rw [if_neg hcut, if_neg (by omega), slice_of_le (by omega) (by omega), Checked.ok_bind,
          Nat.add_sub_cancel_left, ih _ (by omega), List.append_assoc, Nat.add_assoc]
        rfl
    · rw [dif_neg hhdr, if_pos (by omega), List.append_nil]
      rfl

theorem raw_parseInodeRefEntries (d : Bytes) :
    Raw.parseInodeRefEntries d = .ok (parseInodeRefEntries d) :=
  raw_inodeRefsFrom [] (by omega)

/-- A predicate that, once false along a list, stays false. -/
theorem takeWhile_eq_filter {α : Type} {p : α → Bool} {l : List α}
    (h : l.Pairwise fun a b => p b = true → p a = true) : l.takeWhile p = l.filter p := by
  induction l with
  | nil => rfl
  | cons a l ih =>
    obtain ⟨ha, hl⟩ := List.pairwise_cons.mp h
    rw [List.takeWhile_cons, List.filter_cons]
    by_cases hp : p a = true
    · rw [if_pos hp, if_pos hp, ih hl]
    · rw [if_neg hp, if_neg hp, Eq.comm, List.filter_eq_nil_iff]
      exact fun b hb hpb => hp (ha b hb hpb)

theorem raw_parseAllStripes (d : Bytes) (numStripes : Nat) :
    Raw.parseAllStripes d numStripes = .ok (parseAllStripes d numStripes) := by
  have hsorted : (List.range numStripes).Pairwise fun i j =>
      decide (Raw.stripeOff j + chunkStripeSize ≤ d.length) = true →
        decide (Raw.stripeOff i + chunkStripeSize ≤ d.length) = true := by
    apply List.pairwise_lt_range.imp
    intro i j hij hfit
    rw [decide_eq_true_eq] at hfit ⊢
    simp only [Raw.stripeOff, chunkStripeSize] at hfit ⊢
    omega
  rw [Raw.parseAllStripes, takeWhile_eq_filter hsorted, mapM_eq_ok
    (g := fun i => ⟨leAt 8 (Raw.stripeOff i) d, leAt 8 (Raw.stripeOff i + 8) d⟩)]
  · rw [parseAllStripes, List.filterMap_map, ← List.filterMap_eq_filter, List.map_filterMap]
    congr 2
    funext i
    simp only [Function.comp_apply, Option.guard]
    by_cases hfit : Raw.stripeOff i + chunkStripeSize ≤ d.length
    · rw [if_pos (decide_eq_true hfit)]
      exact (if_neg (Nat.not_lt.mpr hfit)).symm
    · rw [if_neg (by simpa using hfit)]
      exact (if_pos (Nat.not_le.mp hfit)).symm
  · intro i hi
    have hfit := (List.mem_filter.mp hi).2
    have hsz : chunkStripeSize = 0x20 := rfl
    simp only [decide_eq_true_eq] at hfit
    rw [Raw.readStripe, fieldAt_of_le (by omega), Checked.ok_bind, fieldAt_of_le (by omega),
      Checked.ok_bind]
    rfl

/-! ## 5. The chunk array -/

theorem sysChunkAt_ensures (ourDevID logAddr : Nat)
    (h : off + chunkHeaderSize + chunkStripeSize ≤ data.length) :
    Ensures (fun _ => True) (Raw.sysChunkAt data ourDevID logAddr off) := by
  have hhdr : chunkHeaderSize = 0x30 := rfl
  rw [Raw.sysChunkAt]
  apply (ensures_slice (by omega) (le_refl _)).bind
  intro chunk hlen
  have hfits : ∀ i w, i + w ≤ chunkHeaderSize → i + w ≤ chunk.length := by omega
  apply (ensures_fieldAt (hfits chunkSize 8 (by decide))).bind
  intro size _
  apply (ensures_fieldAt (hfits chunkNumStripes 2 (by decide))).bind
  intro numStripes _
  by_cases hzero : numStripes = 0
  · rw [if_pos hzero]
    trivial
  rw [if_neg hzero]
  apply (ensures_fieldAt (hfits chunkType 8 (by decide))).bind
  intro profile _
  apply (ensures_fieldAt (hfits Raw.chunkStripeLen 8 (by decide))).bind
  intro stripeLen _
  apply (ensures_fieldAt (hfits Raw.chunkSubStripes 2 (by decide))).bind
  intro subStripes _
  rw [raw_parseAllStripes]
  trivial

theorem sysChunksFrom_ensures (ourDevID : Nat) (mappings : List PoolChunk) (off : Nat) :
    Ensures (fun _ => True) (Raw.sysChunksFrom data ourDevID mappings off) := by
  induction hm : data.length - off using Nat.strong_induction_on generalizing off mappings with
  | _ m ih =>
    have hsz : Raw.keySize = 17 := rfl
    rw [Raw.sysChunksFrom]
    by_cases hkey : off + Raw.keySize ≤ data.length
    · rw [dif_pos hkey]
      apply (ensures_fieldAt (by omega)).bind
      intro keyType _
      apply (ensures_fieldAt (by omega)).bind
      intro logAddr _
      by_cases htyp : keyType ≠ typeChunkItem
      · rw [if_pos htyp]
        trivial
      rw [if_neg htyp]
      by_cases hcut : data.length < off + Raw.keySize + chunkHeaderSize + chunkStripeSize
      · rw [if_pos hcut]
        trivial
      rw [if_neg hcut]
      apply (sysChunkAt_ensures ourDevID logAddr (by omega)).bind
      intro p _
      exact ih _ (by omega) _ _ rfl
    · rw [dif_neg hkey]
      trivial

end Btrfs
