/-
  Btrfs/SysChunks.lean
  ====================
  **Edits of the chunk array in the superblock** — `rewriteSysChunkArrayEntryLocked` of
  `resize.go` and `deleteSysChunkArrayEntryLocked` of `resize_chunk.go`.

  The array is a concatenation of keys and chunk items, each item as long as its stripes.
  The parser and the two edits walk it with loops of their own, and a deletion moves the
  entries behind the deleted one in place.  On an array of well-formed entries the three
  loops stop at the same places (`sysChunksFrom_entries`, `sysEntryFrom_skip`), so an edit
  changes the parsed chunk it is about and no other.
-/
import Btrfs.ItemBytes

namespace Btrfs

open Lib

/-! ## 1. The edits -/

namespace Raw

def sbfSysChunkArrSz : Nat := 0xA0

def sbfSysChunkArr : Nat := 0x32B

def sbCsumEnd : Nat := 0x1000

def btrfsCsumSeed : Nat := 0

def updateSuperblockCRC (buf : Bytes) : Go Bytes := do
  let body ← slice buf 32 sbCsumEnd
  putField 4 0 (crc32cUpdate btrfsCsumSeed body) buf

/-- The primary superblock on the device, and the errors of a read and of a write of it. -/
structure SuperDevice where
  bytes : Bytes
  readErr : Option Err
  writeErr : Option Err

/-- The loop of both edits: offset and length of the entry with this key, from `off` on. -/
def sysEntryFrom (arr : Bytes) (logStart off : Nat) : Go (Option (Nat × Nat)) :=
  if _h : off + keySize + chunkHeaderSize + chunkStripeSize ≤ arr.length then do
    let keyType ← fieldAt 1 (off + 8) arr
    let keyOff ← fieldAt 8 (off + 9) arr
    let numStripes ← fieldAt 2 (off + keySize + chunkNumStripes) arr
    let entryLen := keySize + chunkHeaderSize + numStripes * chunkStripeSize
    if arr.length < off + entryLen then return none
    else if keyType = typeChunkItem ∧ keyOff = logStart then return some (off, entryLen)
    else sysEntryFrom arr logStart (off + entryLen)
  else return none
termination_by arr.length - off
decreasing_by simp only [keySize] at *; omega

/-- Read the superblock, find the entry, edit the buffer and write it back with a new checksum.
    The result is what the device then holds. -/
def editSysChunkArray (edit : (buf : Bytes) → (arrSz off entryLen : Nat) → Go Bytes)
    (dev : SuperDevice) (logStart : Nat) : Go Bytes := do
  if let some e := dev.readErr then .error (.err (.wrap "read superblock: %w" [] e))
  let buf := dev.bytes
  let arrSz ← fieldAt 4 sbfSysChunkArrSz buf
  if arrSz = 0 ∨ buf.length < sbfSysChunkArr + arrSz then return buf
  else
    let arr ← slice buf sbfSysChunkArr (sbfSysChunkArr + arrSz)
    match ← sysEntryFrom arr logStart 0 with
    | none => return buf
    | some (off, entryLen) =>
      let buf ← updateSuperblockCRC (← edit buf arrSz off entryLen)
      if let some e := dev.writeErr then .error (.err (.wrap "write superblock: %w" [] e))
      return buf

def rewriteSysChunkArrayEntryLocked (dev : SuperDevice) (logStart newSize : Nat) : Go Bytes :=
  editSysChunkArray (fun buf _ off _ =>
    putField 8 (sbfSysChunkArr + (off + (keySize + chunkSize))) newSize buf) dev logStart

/-- Move the entries behind this one over it, and leave zeros where the last of them were. -/
def dropEntry (buf : Bytes) (arrSz off entryLen : Nat) : Go Bytes := do
  let rest ← slice buf (sbfSysChunkArr + (off + entryLen)) (sbfSysChunkArr + arrSz)
  let buf ← copyAt (sbfSysChunkArr + off) rest buf
  let newArrSz := arrSz - entryLen
  let buf ← putField 4 sbfSysChunkArrSz newArrSz buf
  clearRange (sbfSysChunkArr + newArrSz) (sbfSysChunkArr + arrSz) buf

def deleteSysChunkArrayEntryLocked (dev : SuperDevice) (logStart : Nat) : Go Bytes :=
  editSysChunkArray dropEntry dev logStart

end Raw

/-! ## 2. Well-formed arrays -/

/-- A key and a chunk item with all its stripes. -/
structure SysEntry where
  bytes : Bytes
  typ : leAt 1 8 bytes = typeChunkItem
  stripes_pos : 0 < leAt 2 (Raw.keySize + chunkNumStripes) bytes
  length_eq : bytes.length = Raw.keySize + chunkHeaderSize +
    leAt 2 (Raw.keySize + chunkNumStripes) bytes * chunkStripeSize

namespace SysEntry

def logStart (e : SysEntry) : Nat := leAt 8 9 e.bytes

def numStripes (e : SysEntry) : Nat := leAt 2 (Raw.keySize + chunkNumStripes) e.bytes

def item (e : SysEntry) : Bytes := e.bytes.drop Raw.keySize

/-- The chunk of an entry, as a mount with this device id sees it. -/
def chunk (ourDevID : Nat) (e : SysEntry) : PoolChunk :=
  let stripes := parseAllStripes e.item e.numStripes
  let idx := Raw.localIdx ourDevID stripes
  { logStart := e.logStart
    size := leAt 8 chunkSize e.item
    physStart := ((idx.bind fun i => stripes[i]?).map ChunkStripe.offset).getD 0
    profile := leAt 8 chunkType e.item
    localStripeIdx := idx
    stripeLen := leAt 8 Raw.chunkStripeLen e.item
    subStripes := leAt 2 Raw.chunkSubStripes e.item
    stripes := stripes }

end SysEntry

def arrayOf (es : List SysEntry) : Bytes := es.flatMap SysEntry.bytes

/-- The array of a superblock: the recorded size says how long it is. -/
def sysChunkArray (buf : Bytes) : Bytes :=
  (buf.drop Raw.sbfSysChunkArr).take (leAt 4 Raw.sbfSysChunkArrSz buf)

/-- A superblock, cut at the ends of its array. -/
structure SuperParts where
  head : Bytes
  arr : Bytes
  tail : Bytes
  head_length : head.length = Raw.sbfSysChunkArr
  size : leAt 4 Raw.sbfSysChunkArrSz head = arr.length
  total : head.length + (arr.length + tail.length) = sbfSize

def SuperParts.bytes (s : SuperParts) : Bytes := s.head ++ (s.arr ++ s.tail)

variable {s : SuperParts} {e : SysEntry} {pre post es : List SysEntry} {logStart n dev : Nat}

namespace SysEntry

theorem room (e : SysEntry) :
    Raw.keySize + chunkHeaderSize + chunkStripeSize ≤ e.bytes.length := by
  have hpos := e.stripes_pos
  have hsz : chunkStripeSize = 0x20 := rfl
  rw [e.length_eq, hsz]
  omega

theorem length_item (e : SysEntry) :
    e.item.length = chunkHeaderSize + e.numStripes * chunkStripeSize := by
  have hlen := e.length_eq
  rw [item, List.length_drop, numStripes]
  omega

theorem numStripes_item (e : SysEntry) : leAt 2 chunkNumStripes e.item = e.numStripes :=
  leAt_drop 2 _ _ _

end SysEntry

theorem arrayOf_append (es es' : List SysEntry) : arrayOf (es ++ es') = arrayOf es ++ arrayOf es' :=
  List.flatMap_append

theorem arrayOf_append_cons (pre post : List SysEntry) (e : SysEntry) :
    arrayOf (pre ++ e :: post) = arrayOf pre ++ (e.bytes ++ arrayOf post) := by
  rw [arrayOf_append]
  exact congrArg _ List.flatMap_cons

/-! ## 3. The parser -/

theorem parseAllStripes_append (d rest : Bytes) (k : Nat)
    (h : d.length = chunkHeaderSize + k * chunkStripeSize) :
    parseAllStripes (d ++ rest) k = parseAllStripes d k := by
  apply List.filterMap_congr
  intro base hbase
  obtain ⟨i, hi, rfl⟩ := List.mem_map.mp hbase
  have hfit : chunkHeaderSize + i * chunkStripeSize + chunkStripeSize ≤ d.length := by
    rw [h, Nat.add_assoc, ← Nat.succ_mul]
    exact Nat.add_le_add_left (Nat.mul_le_mul_right _ (List.mem_range.mp hi)) _
  have hsz : chunkStripeSize = 0x20 := rfl
  rw [if_neg (by rw [List.length_append]; omega), if_neg (by omega), leAt_append_left (by omega),
    leAt_append_left (by omega)]

theorem sysChunkAt_entry (a : Bytes) (e : SysEntry) (rest : Bytes) (dev : Nat) :
    Raw.sysChunkAt (a ++ (e.bytes ++ rest)) dev e.logStart (a.length + Raw.keySize) =
      .ok (e.chunk dev, e.numStripes) := by
  have hroom := e.room
  have hitem := e.length_item
  have hpos : e.numStripes ≠ 0 := Nat.pos_iff_ne_zero.mp e.stripes_pos
  have hhdr : chunkHeaderSize = 0x30 := rfl
  have hdrop : (a ++ (e.bytes ++ rest)).drop (a.length + Raw.keySize) = e.item ++ rest := by
    rw [List.drop_length_add_append, List.drop_append_of_le_length (by omega), SysEntry.item]
  have hfield : ∀ w off, off + w ≤ chunkHeaderSize →
      (fieldAt w off (e.item ++ rest) : Raw.Go Nat) = .ok (leAt w off e.item) := by
    intro w off hoff
    rw [fieldAt_of_le (by rw [List.length_append]; omega), leAt_append_left (by omega)]
  rw [Raw.sysChunkAt, slice_of_le (by simp only [List.length_append]; omega) (le_refl _), hdrop,
    Checked.ok_bind, List.take_of_length_le (by simp only [List.length_append, ← hdrop, List.length_drop]; omega)]
  rw [hfield 8 chunkSize (by decide), Checked.ok_bind, hfield 2 chunkNumStripes (by decide),
    Checked.ok_bind, e.numStripes_item, if_neg hpos, hfield 8 chunkType (by decide),
    Checked.ok_bind, hfield 8 Raw.chunkStripeLen (by decide), Checked.ok_bind,
    hfield 2 Raw.chunkSubStripes (by decide), Checked.ok_bind, raw_parseAllStripes,
    Checked.ok_bind, parseAllStripes_append _ _ _ hitem]
  rfl

theorem sysChunksFrom_entries (es : List SysEntry) (a : Bytes) (ms : List PoolChunk) :
    Raw.sysChunksFrom (a ++ arrayOf es) dev ms a.length = .ok (ms ++ es.map (·.chunk dev)) := by
  have hkey : Raw.keySize = 17 := rfl
  induction es generalizing a ms with
  | nil =>
    rw [Raw.sysChunksFrom, dif_neg (by simp only [arrayOf, List.flatMap_nil, List.append_nil]; omega),
      List.map_nil, List.append_nil]
    rfl
  | cons e es ih =>
    have hroom := e.room
    have hlen := e.length_eq
    have harr : arrayOf (e :: es) = e.bytes ++ arrayOf es := List.flatMap_cons
    have hnext : a.length + Raw.keySize + (chunkHeaderSize + e.numStripes * chunkStripeSize) =
        (a ++ e.bytes).length := by
      rw [List.length_append, hlen, SysEntry.numStripes]
      omega
    rw [harr, Raw.sysChunksFrom, dif_pos (by simp only [List.length_append]; omega),
      fieldAt_append_mid (by omega), Checked.ok_bind, fieldAt_append_mid (by omega), Checked.ok_bind,
      if_neg (not_not.mpr e.typ), if_neg (by simp only [List.length_append]; omega)]
    change (Raw.sysChunkAt _ dev e.logStart _ >>= _) = _
    rw [sysChunkAt_entry, Checked.ok_bind]
    simp only [hnext]
    rw [← List.append_assoc, ih, List.map_cons, List.append_assoc]
    rfl

/-- The parser gives the chunk of each entry. -/
theorem parseSysChunkArray_entries (es : List SysEntry) (dev : Nat) :
    Raw.parseSysChunkArray (arrayOf es) dev = .ok (es.map (·.chunk dev)) :=
  sysChunksFrom_entries es [] []

/-! ## 4. The loop of the edits -/

theorem sysEntryFrom_step (a : Bytes) (e : SysEntry) (rest : Bytes) (logStart : Nat) :
    Raw.sysEntryFrom (a ++ (e.bytes ++ rest)) logStart a.length =
      if e.logStart = logStart then .ok (some (a.length, e.bytes.length))
      else Raw.sysEntryFrom (a ++ (e.bytes ++ rest)) logStart (a.length + e.bytes.length) := by
  have hroom := e.room
  have hkey : Raw.keySize = 17 := rfl
  have hnum : chunkNumStripes = 0x2C := rfl
  have hhdr : chunkHeaderSize = 0x30 := rfl
  rw [Raw.sysEntryFrom, dif_pos (by simp only [List.length_append]; omega),
    fieldAt_append_mid (by omega), Checked.ok_bind, fieldAt_append_mid (by omega), Checked.ok_bind,
    Nat.add_assoc, fieldAt_append_mid (by omega), Checked.ok_bind, ← e.length_eq,
    if_neg (by simp only [List.length_append]; omega)]
  simp only [e.typ, true_and]
  rfl

/-- The loop passes the entries with other keys. -/
theorem sysEntryFrom_skip (es : List SysEntry) (h : ∀ x ∈ es, x.logStart ≠ logStart) (a rest : Bytes) :
    Raw.sysEntryFrom (a ++ (arrayOf es ++ rest)) logStart a.length =
      Raw.sysEntryFrom (a ++ (arrayOf es ++ rest)) logStart (a ++ arrayOf es).length := by
  induction es generalizing a with
  | nil => rw [arrayOf, List.flatMap_nil, List.append_nil]
  | cons e es ih =>
    have ih := ih (fun x hx => h x (List.mem_cons_of_mem _ hx)) (a ++ e.bytes)
    have harr : arrayOf (e :: es) = e.bytes ++ arrayOf es := List.flatMap_cons
    rw [harr, List.append_assoc, sysEntryFrom_step, if_neg (h e List.mem_cons_self),
      ← List.length_append]
    simpa only [List.append_assoc] using ih

theorem sysEntryFrom_found {rest : Bytes} (hpre : ∀ x ∈ pre, x.logStart ≠ logStart)
    (hkey : e.logStart = logStart) :
    Raw.sysEntryFrom (arrayOf pre ++ (e.bytes ++ rest)) logStart 0 =
      .ok (some ((arrayOf pre).length, e.bytes.length)) := by
  have hskip := sysEntryFrom_skip pre hpre [] (e.bytes ++ rest)
  rw [List.nil_append, List.nil_append] at hskip
  rw [← List.length_nil (α := UInt8), hskip, sysEntryFrom_step, if_pos hkey]

theorem sysEntryFrom_absent (h : ∀ x ∈ es, x.logStart ≠ logStart) :
    Raw.sysEntryFrom (arrayOf es) logStart 0 = .ok none := by
  have hskip := sysEntryFrom_skip es h [] []
  rw [List.nil_append, List.nil_append, List.append_nil] at hskip
  have hkey : Raw.keySize = 17 := rfl
  rw [← List.length_nil (α := UInt8), hskip, Raw.sysEntryFrom, dif_neg (by omega)]
  rfl

/-! ## 5. What an edit leaves -/

namespace SysEntry

/-- Where the entry has the size of its chunk. -/
theorem fits_size (e : SysEntry) (n : Nat) :
    Raw.keySize + chunkSize + (leBytes 8 n).length ≤ e.bytes.length := by
  rw [length_leBytes]
  exact le_trans (by decide) e.room

theorem leAt_putSize (e : SysEntry) (n : Nat) {w off : Nat}
    (h : off + w ≤ Raw.keySize + chunkSize ∨ Raw.keySize + chunkSize + 8 ≤ off) :
    leAt w off (putLE 8 (Raw.keySize + chunkSize) n e.bytes) = leAt w off e.bytes :=
  leAt_putAt_of_disjoint (e.fits_size n) (by rwa [length_leBytes])

/-- The entry with another size in its item. -/
def resize (e : SysEntry) (n : Nat) : SysEntry where
  bytes := putLE 8 (Raw.keySize + chunkSize) n e.bytes
  typ := (e.leAt_putSize n (.inl (by decide))).trans e.typ
  stripes_pos := by
    rw [e.leAt_putSize n (.inr (by decide))]
    exact e.stripes_pos
  length_eq := by
    rw [e.leAt_putSize n (.inr (by decide)), putLE, length_putAt (e.fits_size n)]
    exact e.length_eq

theorem length_resize (e : SysEntry) (n : Nat) : (e.resize n).bytes.length = e.bytes.length :=
  length_putAt (e.fits_size n)

theorem chunk_resize (e : SysEntry) (hn : n < 2 ^ 64) :
    (e.resize n).chunk dev = { e.chunk dev with size := n } := by
  have hkept : ∀ w off, 8 ≤ off → leAt w off (e.resize n).item = leAt w off e.item := by
    intro w off hoff
    rw [item, item, leAt_drop, leAt_drop]
    exact e.leAt_putSize n (.inr (Nat.add_le_add_left hoff _))
  have hnum : (e.resize n).numStripes = e.numStripes := e.leAt_putSize n (.inr (by decide))
  have hlog : (e.resize n).logStart = e.logStart := e.leAt_putSize n (.inl (by decide))
  have hput : leAt 8 chunkSize (e.resize n).item = n := by
    rw [item, leAt_drop]
    exact leAt_putLE_self (le_trans (by decide) e.room) hn
  have hstripes : parseAllStripes (e.resize n).item e.numStripes =
      parseAllStripes e.item e.numStripes := by
    apply List.filterMap_congr
    intro base hbase
    obtain ⟨i, -, rfl⟩ := List.mem_map.mp hbase
    have hhdr : chunkHeaderSize = 0x30 := rfl
    rw [length_item, hnum, ← length_item, hkept _ _ (by omega), hkept _ _ (by omega)]
  simp only [chunk, hnum, hlog, hstripes, hput, hkept 8 chunkType (by decide),
    hkept 8 Raw.chunkStripeLen (by decide), hkept 2 Raw.chunkSubStripes (by decide)]

end SysEntry

namespace SuperParts

theorem size_fits (s : SuperParts) : Raw.sbfSysChunkArrSz + 4 ≤ s.head.length := by
  rw [s.head_length]
  decide

theorem length_bytes (s : SuperParts) : s.bytes.length = sbfSize := by
  rw [bytes, List.length_append, List.length_append, s.total]

theorem leAt_size (s : SuperParts) : leAt 4 Raw.sbfSysChunkArrSz s.bytes = s.arr.length := by
  rw [bytes, leAt_append_left s.size_fits, s.size]

theorem sysChunkArray_bytes (s : SuperParts) : sysChunkArray s.bytes = s.arr := by
  rw [sysChunkArray, s.leAt_size, bytes, List.drop_left' s.head_length, List.take_left]

/-- A new checksum changes the first part only. -/
theorem updateSuperblockCRC (s : SuperParts) :
    ∃ s' : SuperParts, Raw.updateSuperblockCRC s.bytes = .ok s'.bytes ∧ s'.arr = s.arr ∧
      s'.tail = s.tail := by
  have hlen := s.length_bytes
  have hsz : sbfSize = 0x1000 := rfl
  have hend : Raw.sbCsumEnd = 0x1000 := rfl
  have hfit : 0 + 4 ≤ s.head.length := le_trans (by decide) s.size_fits
  rw [Raw.updateSuperblockCRC, slice_of_le (by omega) (by omega), Checked.ok_bind,
    putField_of_le (by omega)]
  generalize crc32cUpdate _ _ = crc
  refine ⟨⟨putLE 4 0 crc s.head, s.arr, s.tail, (length_putLE hfit).trans s.head_length, ?_, ?_⟩,
    ?_, rfl, rfl⟩
  · rw [putLE, leAt_putAt_of_disjoint (by rwa [length_leBytes]) (.inr (by rw [length_leBytes]; decide)),
      s.size]
  · rw [length_putLE hfit, s.total]
  · rw [bytes, putLE, putAt_append_left (by rwa [length_leBytes])]
    rfl

/-- The edit is run at the entry the loop finds, and its result gets a new checksum. -/
theorem editSysChunkArray_eq (s : SuperParts)
    (edit : (buf : Bytes) → (arrSz off entryLen : Nat) → Raw.Go Bytes) :
    Raw.editSysChunkArray edit ⟨s.bytes, none, none⟩ logStart =
      Raw.sysEntryFrom s.arr logStart 0 >>= fun
        | none => .ok s.bytes
        | some (off, len) => edit s.bytes s.arr.length off len >>= Raw.updateSuperblockCRC := by
  have hlen := s.length_bytes
  have htotal := s.total
  have hhead := s.head_length
  have hsz := s.size_fits
  rw [Raw.editSysChunkArray]
  dsimp only
  rw [fieldAt_of_le (by omega), Checked.ok_bind, s.leAt_size]
  by_cases hnil : s.arr.length = 0
  · rw [if_pos (.inl hnil), List.length_eq_zero_iff.mp hnil, Raw.sysEntryFrom, dif_neg (by decide)]
    rfl
  · rw [if_neg (by omega), slice_of_le (by omega) (by omega), Checked.ok_bind,
      Nat.add_sub_cancel_left, bytes, List.drop_left' hhead, List.take_left]
    congr 1
    funext r
    match r with
    | none => rfl
    | some (off, len) => exact congrArg _ (funext fun b => bind_pure _)

/-- The superblock with another array of the same length. -/
def withArr (s : SuperParts) (arr : Bytes) (h : arr.length = s.arr.length) : SuperParts :=
  ⟨s.head, arr, s.tail, s.head_length, s.size.trans h.symm, by rw [h, s.total]⟩

/-- A deletion in an array that is cut at the ends of the entry. -/
theorem dropEntry_parts {p m q : Bytes} (h : s.arr = p ++ (m ++ q)) :
    ∃ s' : SuperParts, Raw.dropEntry s.bytes s.arr.length p.length m.length = .ok s'.bytes ∧
      s'.arr = p ++ q ∧ s'.tail = List.replicate m.length 0 ++ s.tail := by
  have htotal := s.total
  have hsz := s.size_fits
  have hsbf : sbfSize = 0x1000 := rfl
  have hbytes := s.length_bytes
  have hlen : s.arr.length = p.length + (m.length + q.length) := by
    rw [h, List.length_append, List.length_append]
  have hnew : s.arr.length - m.length = (p ++ q).length := by
    rw [List.length_append]
    omega
  have hrest : (s.bytes.drop (s.head.length + (p.length + m.length))).take
      (s.head.length + s.arr.length - (s.head.length + (p.length + m.length))) = q := by
    rw [bytes, List.drop_length_add_append, h, List.append_assoc, List.drop_length_add_append,
      List.append_assoc, List.drop_left, List.take_left' (by rw [← h]; omega)]
  have hmove : putAt (s.head.length + p.length) q s.bytes =
      s.head ++ (p ++ q ++ ((m ++ q).drop q.length ++ s.tail)) := by
    rw [bytes, putAt_append_right, h, List.append_assoc, ← Nat.add_zero p.length,
      putAt_append_right, putAt_append_left (by rw [List.length_append]; omega), putAt]
    simp only [List.take_zero, List.nil_append, Nat.zero_add, List.append_assoc]
  have hz : ((m ++ q).drop q.length).length = m.length := by
    rw [List.length_drop, List.length_append, Nat.add_sub_cancel]
  generalize (m ++ q).drop q.length = z at hmove hz
  have hhead := length_putLE (v := (p ++ q).length) hsz
  refine ⟨⟨putLE 4 Raw.sbfSysChunkArrSz (p ++ q).length s.head, p ++ q,
    List.replicate m.length 0 ++ s.tail, hhead.trans s.head_length, ?_, ?_⟩, ?_, rfl, rfl⟩
  · apply leAt_putLE_self (by omega)
    rw [List.length_append]
    omega
  · rw [hhead, ← hnew, List.length_append, List.length_replicate]
    omega
  change _ = Except.ok (putLE 4 Raw.sbfSysChunkArrSz (p ++ q).length s.head ++
    (p ++ q ++ (List.replicate m.length 0 ++ s.tail)))
  rw [Raw.dropEntry, ← s.head_length, slice_of_le (by omega) (by omega), hrest, Checked.ok_bind,
    copyAt_of_le (by omega), Checked.ok_bind, hmove]
  dsimp only
  have hcount : s.head.length + s.arr.length - (s.head.length + (p ++ q).length) = m.length := by
    omega
  rw [hnew, putField_of_le (by simp only [List.length_append]; omega), Checked.ok_bind, putLE,
    putAt_append_left (by rw [length_leBytes]; exact hsz), ← putLE,
    clearRange_of_le (by omega) (by rw [List.length_append, hhead]; simp only [List.length_append]; omega),
    hcount, ← hhead, putAt_append_right, ← Nat.add_zero (p ++ q).length, putAt_append_right,
    putAt_append_left (by rw [List.length_replicate]; omega), putAt,
    List.drop_eq_nil_of_le (by rw [List.length_replicate]; omega), List.append_nil]
  rfl

section Found

variable (h : s.arr = arrayOf (pre ++ e :: post)) (hkey : e.logStart = logStart)
  (hpre : ∀ x ∈ pre, x.logStart ≠ logStart)

include h hkey hpre

/-- The rewritten entry stands between the others. -/
theorem rewriteSysChunkArrayEntryLocked_found (n : Nat) :
    ∃ s' : SuperParts,
      Raw.rewriteSysChunkArrayEntryLocked ⟨s.bytes, none, none⟩ logStart n = .ok s'.bytes ∧
        s'.arr = arrayOf (pre ++ e.resize n :: post) := by
  have hfit := e.fits_size n
  have htotal := s.total
  have hhead := s.head_length
  rw [arrayOf_append_cons] at h ⊢
  have hput : putLE 8 (Raw.sbfSysChunkArr + ((arrayOf pre).length + (Raw.keySize + chunkSize))) n
      s.bytes = s.head ++ (arrayOf pre ++ ((e.resize n).bytes ++ arrayOf post) ++ s.tail) := by
    rw [putLE, bytes, h, ← hhead, putAt_append_right, List.append_assoc, putAt_append_right,
      List.append_assoc, putAt_append_left hfit]
    simp only [List.append_assoc]
    rfl
  have hlen : (arrayOf pre ++ ((e.resize n).bytes ++ arrayOf post)).length = s.arr.length := by
    rw [h]
    simp only [List.length_append, e.length_resize]
  obtain ⟨s', hcrc, harr, -⟩ := (s.withArr _ hlen).updateSuperblockCRC
  refine ⟨s', ?_, harr⟩
  rw [Raw.rewriteSysChunkArrayEntryLocked, s.editSysChunkArray_eq, h, sysEntryFrom_found hpre hkey,
    Checked.ok_bind]
  simp only [h, List.length_append, length_leBytes] at htotal hfit
  dsimp only
  rw [putField_of_le (by rw [s.length_bytes]; omega), hput, Checked.ok_bind]
  exact hcrc

/-- The entries behind the deleted one move up, and zeros come in at the end. -/
theorem deleteSysChunkArrayEntryLocked_found :
    ∃ s' : SuperParts,
      Raw.deleteSysChunkArrayEntryLocked ⟨s.bytes, none, none⟩ logStart = .ok s'.bytes ∧
        s'.arr = arrayOf (pre ++ post) ∧ s'.tail = List.replicate e.bytes.length 0 ++ s.tail := by
  rw [arrayOf_append_cons] at h
  obtain ⟨s₁, hdrop, harr₁, htail₁⟩ := dropEntry_parts h
  obtain ⟨s', hcrc, harr, htail⟩ := s₁.updateSuperblockCRC
  refine ⟨s', ?_, by rw [harr, harr₁, arrayOf_append], htail.trans htail₁⟩
  rw [Raw.deleteSysChunkArrayEntryLocked, s.editSysChunkArray_eq]
  nth_rewrite 1 [h]
  rw [sysEntryFrom_found hpre hkey, Checked.ok_bind]
  dsimp only
  rw [hdrop, Checked.ok_bind, hcrc]

end Found

theorem editSysChunkArray_absent (h : s.arr = arrayOf es) (habsent : ∀ e ∈ es, e.logStart ≠ logStart)
    (edit : (buf : Bytes) → (arrSz off entryLen : Nat) → Raw.Go Bytes) :
    Raw.editSysChunkArray edit ⟨s.bytes, none, none⟩ logStart = .ok s.bytes := by
  rw [s.editSysChunkArray_eq, h, sysEntryFrom_absent habsent, Checked.ok_bind]

end SuperParts

/-! ## 6. Edits and the parser -/

/-- **Edits of the array agree with its parser.**  A rewrite changes the size of the chunk at
    `logStart` and nothing else that is parsed; a deletion takes the chunk out, the recorded size
    shrinks by the length of its entry, and the freed bytes are zero; without such a chunk the
    superblock stays as it is. -/
theorem sysChunkEdits_agree (h : s.arr = arrayOf es) (logStart n dev : Nat) (hn : n < 2 ^ 64) :
    Raw.parseSysChunkArray (sysChunkArray s.bytes) dev = .ok (es.map (·.chunk dev)) ∧
      (∀ pre e post, es = pre ++ e :: post → e.logStart = logStart →
        (∀ x ∈ pre, x.logStart ≠ logStart) →
        (∃ buf', Raw.rewriteSysChunkArrayEntryLocked ⟨s.bytes, none, none⟩ logStart n = .ok buf' ∧
          Raw.parseSysChunkArray (sysChunkArray buf') dev =
            .ok (pre.map (·.chunk dev) ++ { e.chunk dev with size := n } :: post.map (·.chunk dev))) ∧
        ∃ buf', Raw.deleteSysChunkArrayEntryLocked ⟨s.bytes, none, none⟩ logStart = .ok buf' ∧
          Raw.parseSysChunkArray (sysChunkArray buf') dev =
            .ok (pre.map (·.chunk dev) ++ post.map (·.chunk dev)) ∧
          leAt 4 Raw.sbfSysChunkArrSz buf' + e.bytes.length = leAt 4 Raw.sbfSysChunkArrSz s.bytes ∧
          (buf'.drop (Raw.sbfSysChunkArr + leAt 4 Raw.sbfSysChunkArrSz buf')).take e.bytes.length =
            List.replicate e.bytes.length 0) ∧
      ((∀ e ∈ es, e.logStart ≠ logStart) →
        Raw.rewriteSysChunkArrayEntryLocked ⟨s.bytes, none, none⟩ logStart n = .ok s.bytes ∧
          Raw.deleteSysChunkArrayEntryLocked ⟨s.bytes, none, none⟩ logStart = .ok s.bytes) := by
  refine ⟨?_, ?_, ?_⟩
  · rw [s.sysChunkArray_bytes, h, parseSysChunkArray_entries]
  · rintro pre e post rfl hkey hpre
    obtain ⟨s₁, hrun₁, harr₁⟩ := s.rewriteSysChunkArrayEntryLocked_found h hkey hpre n
    obtain ⟨s₂, hrun₂, harr₂, htail₂⟩ := s.deleteSysChunkArrayEntryLocked_found h hkey hpre
    refine ⟨⟨_, hrun₁, ?_⟩, _, hrun₂, ?_, ?_, ?_⟩
    · rw [s₁.sysChunkArray_bytes, harr₁, parseSysChunkArray_entries, List.map_append, List.map_cons,
        e.chunk_resize hn]
    · rw [s₂.sysChunkArray_bytes, harr₂, parseSysChunkArray_entries, List.map_append]
    · rw [s₂.leAt_size, s.leAt_size, harr₂, h, arrayOf_append, arrayOf_append_cons]
      simp only [List.length_append]
      omega
    · rw [s₂.leAt_size, ← s₂.head_length, SuperParts.bytes, List.drop_length_add_append,
        List.drop_left, htail₂, List.take_left' List.length_replicate]
  · intro habsent
    exact ⟨s.editSysChunkArray_absent h habsent _, s.editSysChunkArray_absent h habsent _⟩

/-- The bytes of an entry without device ids. -/
def sysEntryBytes (logStart numStripes : Nat) : Bytes :=
  leBytes 8 256 ++ (leBytes 1 typeChunkItem ++ (leBytes 8 logStart ++
    (List.replicate chunkNumStripes 0 ++ (leBytes 2 numStripes ++
      List.replicate (2 + numStripes * chunkStripeSize) 0))))

def singleEntry : SysEntry :=
  ⟨sysEntryBytes 0x100000 1, by decide +kernel, by decide +kernel, by decide +kernel⟩

def mirrorEntry : SysEntry :=
  ⟨sysEntryBytes 0x500000 2, by decide +kernel, by decide +kernel, by decide +kernel⟩

/-- A superblock that is zero but for an array of two entries. -/
def twoEntrySuper : SuperParts where
  head := putLE 4 Raw.sbfSysChunkArrSz 226 (List.replicate Raw.sbfSysChunkArr 0)
  arr := arrayOf [singleEntry, mirrorEntry]
  tail := List.replicate 3059 0
  head_length := by decide +kernel
  size := by decide +kernel
  total := by decide +kernel

theorem sysChunkEdits_agree_mirror :
    (∃ buf', Raw.rewriteSysChunkArrayEntryLocked ⟨twoEntrySuper.bytes, none, none⟩ 0x500000 7 = .ok buf' ∧
        Raw.parseSysChunkArray (sysChunkArray buf') 1 =
          .ok [singleEntry.chunk 1, { mirrorEntry.chunk 1 with size := 7 }]) ∧
      ∃ buf', Raw.deleteSysChunkArrayEntryLocked ⟨twoEntrySuper.bytes, none, none⟩ 0x500000 = .ok buf' ∧
        Raw.parseSysChunkArray (sysChunkArray buf') 1 = .ok [singleEntry.chunk 1] := by
  obtain ⟨-, hfound, -⟩ := sysChunkEdits_agree (s := twoEntrySuper) rfl 0x500000 7 1 (by decide)
  obtain ⟨hrewrite, buf', hrun, hparse, -⟩ :=
    hfound [singleEntry] mirrorEntry [] rfl (by decide +kernel) (by decide +kernel)
  exact ⟨hrewrite, buf', hrun, hparse⟩

end Btrfs
