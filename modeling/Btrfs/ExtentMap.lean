/-
  Btrfs/ExtentMap.lean
  ====================
  **The extent map of a file** — what the EXTENT_DATA items of a file designate, and what
  `readFileData` makes of them.

  A well-formed item maps a range of the file: to nothing (a hole, or preallocated space),
  to plain bytes, or to a window of the bytes a compressed stream stands for.  The ranges
  do not overlap.  A byte of the file is the byte its range designates, or zero.

  `readFileData` agrees with the map, except that it fails where the map has no item at
  all, and where an LZO stream goes on behind the window that is used of it.
-/
import Btrfs.Codecs
import Btrfs.Runs

namespace Btrfs

open Lib

/-! ## 1. What an item designates -/

/-- What a range of a file is mapped to. -/
inductive Mapped
  | hole (len : Nat)
  | plain (len : Nat) (data : Bytes)
  /-- The bytes of a stream from an offset on. -/
  | packed (compression : Nat) (stream : Bytes) (offset len : Nat)

namespace Mapped

def len : Mapped → Nat
  | hole len => len
  | plain len _ => len
  | packed _ _ _ len => len

/-- The byte at a place in the range. -/
def byte : Mapped → Nat → UInt8
  | hole _, _ => 0
  | plain _ data, j => data.getD j 0
  | packed _ stream offset _, j => stream.getD (offset + j) 0

/-- Nothing of an LZO stream lies behind what `n` bytes from the range need. -/
def EndsInWindow (n : Nat) : Mapped → Prop
  | packed compression stream offset _ => compression = compressionLzo → stream.length ≤ offset + n
  | _ => True

end Mapped

/-- A range of a file and what it is mapped to. -/
structure MappedRange where
  start : Nat
  mapped : Mapped

namespace MappedRange

def stop (x : MappedRange) : Nat := x.start + x.mapped.len

def covers (k : Nat) (x : MappedRange) : Bool := decide (x.start ≤ k ∧ k < x.stop)

theorem covers_iff {k : Nat} {x : MappedRange} :
    x.covers k = true ↔ x.start ≤ k ∧ k < x.start + x.mapped.len :=
  decide_eq_true_iff

/-- What a later range covers, an earlier one does not. -/
theorem not_covers_of_le {k : Nat} {x y : MappedRange} (h : x.stop ≤ y.start)
    (hy : y.covers k = true) : ¬ x.covers k = true := by
  rw [covers_iff] at hy ⊢
  unfold stop at h
  omega

end MappedRange

/-- The byte of a file with these ranges. -/
def designated (ranges : List MappedRange) (k : Nat) : UInt8 :=
  match ranges.find? (·.covers k) with
  | some x => x.mapped.byte (k - x.start)
  | none => 0

/-- The bytes at a logical range of the filesystem, each found through the chunk map. -/
structure HoldsBytes (sb : Superblock) (dev : Device) (logAddr : Nat) (b : Bytes) : Prop where
  inChunk : ∃ m, ∀ j < b.length, sb.lookupChunk (logAddr + j) = .ok m
  cells : ∀ j < b.length, ∃ phys, sb.physAddr (logAddr + j) = .ok phys ∧
    dev.cellAt Payload.bytes? phys = b[j]?

variable {σ : Type} (B : Backend σ) (dec : Decoders) (s : σ) (size : Nat)

/-- A well-formed item of a file of the given size, and what it designates.  Of an extent only what
    lies in the file has to be there. -/
inductive Designates : Key × Bytes → MappedRange → Prop
  | hole {k : Key} {d : Bytes} (htype : extentType d = some extentDataRegular)
      (hlen : extDataRegularSize ≤ d.length) (hdisk : leAt 8 extDataOffDiskBytenr d = 0)
      (hstop : k.offset + leAt 8 extDataOffNumBytes d < 2 ^ 64) :
      Designates (k, d) ⟨k.offset, .hole (leAt 8 extDataOffNumBytes d)⟩
  | prealloc {k : Key} {d : Bytes} (htype : extentType d = some extentDataPrealloc) :
      Designates (k, d) ⟨k.offset, .hole (leAt 8 extDataOffNumBytes d)⟩
  | inline {k : Key} {d : Bytes} (htype : extentType d = some extentDataInline)
      (hplain : leAt 1 extDataOffCompression d = compressionNone) :
      Designates (k, d)
        ⟨k.offset, .plain (d.drop extDataHdrSize).length (d.drop extDataHdrSize)⟩
  | inlinePacked {k : Key} {d stream : Bytes} (htype : extentType d = some extentDataInline)
      (hdec : StreamOf dec (leAt 1 extDataOffCompression d) (d.drop extDataHdrSize) stream)
      (hram : stream.length ≤ leAt 8 extDataOffRamBytes d)
      (hmax : stream.length ≤ maxDecompressRAM) :
      Designates (k, d)
        ⟨k.offset, .packed (leAt 1 extDataOffCompression d) stream 0 stream.length⟩
  | regular {k : Key} {d b : Bytes} (htype : extentType d = some extentDataRegular)
      (hlen : extDataRegularSize ≤ d.length) (hdisk : leAt 8 extDataOffDiskBytenr d ≠ 0)
      (hplain : leAt 1 extDataOffCompression d = compressionNone)
      (hpos : 0 < leAt 8 extDataOffNumBytes d)
      (hstop : k.offset + leAt 8 extDataOffNumBytes d < 2 ^ 64)
      (hb : b.length = min (leAt 8 extDataOffNumBytes d) (size - k.offset))
      (hheld : HoldsBytes (B.sb s) (B.vol s).dev
        (leAt 8 extDataOffDiskBytenr d + leAt 8 extDataOffOffset d) b) :
      Designates (k, d) ⟨k.offset, .plain (leAt 8 extDataOffNumBytes d) b⟩
  | regularPacked {k : Key} {d src stream : Bytes}
      (htype : extentType d = some extentDataRegular) (hlen : extDataRegularSize ≤ d.length)
      (hdisk : leAt 8 extDataOffDiskBytenr d ≠ 0) (hpos : 0 < leAt 8 extDataOffNumBytes d)
      (hstop : k.offset + leAt 8 extDataOffNumBytes d < 2 ^ 64)
      (hsrc : src.length = leAt 8 extDataOffDiskNumBytes d)
      (hsmall : 0 < src.length ∧ src.length ≤ 128 * 1024)
      (hheld : HoldsBytes (B.sb s) (B.vol s).dev (leAt 8 extDataOffDiskBytenr d) src)
      (hdec : StreamOf dec (leAt 1 extDataOffCompression d) src stream)
      (hram : stream.length ≤ leAt 8 extDataOffRamBytes d)
      (hmax : stream.length ≤ maxDecompressRAM)
      (hwindow : leAt 8 extDataOffOffset d +
        min (leAt 8 extDataOffNumBytes d) (size - k.offset) ≤ stream.length) :
      Designates (k, d) ⟨k.offset, .packed (leAt 1 extDataOffCompression d) stream
        (leAt 8 extDataOffOffset d) (leAt 8 extDataOffNumBytes d)⟩

/-! ## 2. Reading an item -/

variable {B dec s size} {e : Key × Bytes} {x : MappedRange}

/-- Bytes at a logical range in one chunk are read at once. -/
theorem HoldsBytes.readAt {sb : Superblock} {dev : Device} {logAddr : Nat} {b : Bytes}
    (h : HoldsBytes sb dev logAddr b) (hpos : 0 < b.length) :
    ∃ phys, sb.physAddr logAddr = .ok phys ∧ readAt dev phys b.length = .ok b := by
  obtain ⟨m, hchunk⟩ := h.inChunk
  obtain ⟨phys, hphys, -⟩ := h.cells 0 hpos
  rw [Nat.add_zero] at hphys
  refine ⟨phys, hphys, readAt_eq_ok.mpr (WriteLog.readCells_eq_some.mpr ⟨rfl, fun j hj => ?_⟩)⟩
  obtain ⟨phys', hphys', hcell⟩ := h.cells j hj
  rw [physAddr_add hchunk hj hphys] at hphys'
  obtain rfl := Except.ok.inj hphys'
  exact hcell

/-- The bytes a turn of the loop puts down for a range, `n` of which lie in the file: none if they
    are all zero, or all of them. -/
def Mapped.Fills (m : Mapped) (n : Nat) (b : Bytes) : Prop :=
  (b = [] ∧ ∀ j, m.byte j = 0) ∨ (b.length = n ∧ ∀ j < n, b[j]? = some (m.byte j))

theorem getElem?_eq_some_getD {b : Bytes} {j : Nat} (h : j < b.length) : b[j]? = some (b.getD j 0) := by
  rw [List.getD_eq_getElem?_getD, List.getElem?_eq_getElem h]
  rfl

/-- Where the whole of a stream is within reach of the bound, the bound is what is needed of it. -/
theorem clampRAM_of_stream {ram len : Nat} (ctx : Nat) (hram : len ≤ ram)
    (hmax : len ≤ maxDecompressRAM) :
    clampRAM ram ctx ≤ maxDecompressRAM ∧ clampRAM ram ctx ≤ ctx ∧ min len ctx ≤ clampRAM ram ctx := by
  unfold clampRAM
  omega

theorem Designates.itemBytes_eq (h : Designates B dec s size e x) (hin : e.1.offset < size)
    (hend : x.mapped.EndsInWindow (min x.mapped.len (size - x.start))) :
    ∃ b, itemBytes B dec.codec s size e = some b ∧
      x.mapped.Fills (min x.mapped.len (size - x.start)) b := by
  have hreg : extentDataRegular ≠ extentDataInline := by decide
  cases h with
  | @hole k d htype hlen hdisk hstop =>
    refine ⟨[], ?_, Or.inl ⟨rfl, fun _ => rfl⟩⟩
    simp only [itemBytes, if_neg (not_le.mpr hin), htype, hdisk, if_true, ite_self, hreg, if_false]
  | @prealloc k d htype =>
    refine ⟨[], ?_, Or.inl ⟨rfl, fun _ => rfl⟩⟩
    simp only [itemBytes, if_neg (not_le.mpr hin), htype]
    rfl
  | @inline k d htype hplain =>
    refine ⟨(d.drop extDataHdrSize).take (size - k.offset), ?_, Or.inr ⟨?_, ?_⟩⟩
    · simp only [itemBytes, if_neg (not_le.mpr hin), htype, if_true, decompressExtent, hplain]
      rfl
    · rw [List.length_take, Mapped.len, Nat.min_comm]
    · intro j hj
      simp only [Mapped.len] at hj
      rw [List.getElem?_take, if_pos (by omega)]
      exact getElem?_eq_some_getD (by omega)
  | @inlinePacked k d stream htype hdec hram hmax =>
    simp only [Mapped.EndsInWindow, Mapped.len] at hend hin ⊢
    obtain ⟨hle, hctx, hneed⟩ := clampRAM_of_stream (size - k.offset) hram hmax
    generalize hr : clampRAM (leAt 8 extDataOffRamBytes d) (size - k.offset) = r at hle hctx hneed
    have hexpand : decompressExtent dec.codec (d.drop extDataHdrSize)
        (leAt 1 extDataOffCompression d) r = .ok (stream.take (r + 1)) := by
      apply decompressExtent_stream hdec hle
      intro hlzo
      have := hend hlzo
      omega
    refine ⟨(stream.take (r + 1)).take (size - k.offset), ?_, Or.inr ⟨?_, ?_⟩⟩
    · simp only [itemBytes, if_neg (not_le.mpr hin), htype, if_true, hr, hexpand]
      rfl
    · simp only [List.length_take]
      omega
    · intro j hj
      rw [List.getElem?_take, if_pos (by omega), List.getElem?_take, if_pos (by omega)]
      simp only [Mapped.byte, Nat.zero_add]
      exact getElem?_eq_some_getD (by omega)
  | @regular k d b htype hlen hdisk hplain hpos hstop hb hheld =>
    refine ⟨b, ?_, Or.inr ⟨hb, ?_⟩⟩
    · obtain ⟨phys, hphys, hread⟩ := hheld.readAt (by simp only at hin; omega)
      rw [hb] at hread
      simp only [itemBytes, if_neg (not_le.mpr hin), htype, if_neg hreg, if_true,
        if_neg (not_lt.mpr hlen), if_neg hdisk]
      exact toOption_eq_some.mpr ((readRegularBytes_plain hplain).mpr ⟨phys, hphys, hread⟩)
    · intro j hj
      exact getElem?_eq_some_getD (hb.symm ▸ hj)
  | @regularPacked k d src stream htype hlen hdisk hpos hstop hsrc hsmall hheld hdec hram hmax
      hwindow =>
    simp only [Mapped.EndsInWindow, Mapped.len] at hend hin ⊢
    generalize hn : min (leAt 8 extDataOffNumBytes d) (size - k.offset) = n at hend hwindow ⊢
    obtain ⟨hle, hctx, hneed⟩ := clampRAM_of_stream (leAt 8 extDataOffOffset d + n) hram hmax
    generalize hr : clampRAM (leAt 8 extDataOffRamBytes d) (leAt 8 extDataOffOffset d + n) = r
      at hle hctx hneed
    have hexpand : decompressExtent dec.codec src (leAt 1 extDataOffCompression d) r =
        .ok (stream.take (r + 1)) := by
      apply decompressExtent_stream hdec hle
      intro hlzo
      have := hend hlzo
      omega
    obtain ⟨phys, hphys, hread⟩ := hheld.readAt hsmall.1
    have hlarge : 128 * 1024 ≤ hardSizeCeiling := by decide
    have hlong : leAt 8 extDataOffOffset d + n ≤ (stream.take (r + 1)).length := by
      rw [List.length_take]
      omega
    refine ⟨((stream.take (r + 1)).drop (leAt 8 extDataOffOffset d)).take n, ?_, Or.inr ⟨?_, ?_⟩⟩
    · simp only [itemBytes, if_neg (not_le.mpr hin), htype, if_neg hreg, if_true,
        if_neg (not_lt.mpr hlen), if_neg hdisk, hn]
      refine toOption_eq_some.mpr ((readRegularBytes_packed hdec.ne_none).mpr
        ⟨by omega, phys, src, stream.take (r + 1), hphys, hsrc ▸ hread, hr ▸ hexpand, hlong, rfl⟩)
    · simp only [List.length_take, List.length_drop] at hlong ⊢
      omega
    · intro j hj
      rw [List.getElem?_take, if_pos hj, List.getElem?_drop, List.getElem?_take, if_pos (by omega)]
      exact getElem?_eq_some_getD (by omega)

theorem Designates.itemBytes_none (h : Designates B dec s size e x) (hin : e.1.offset < size)
    (hend : ¬ x.mapped.EndsInWindow (min x.mapped.len (size - x.start))) :
    itemBytes B dec.codec s size e = none := by
  have hreg : extentDataRegular ≠ extentDataInline := by decide
  cases h with
  | hole | prealloc | inline | regular => exact absurd trivial hend
  | @inlinePacked k d stream htype hdec hram hmax =>
    simp only [Mapped.EndsInWindow, Mapped.len] at hend hin
    push Not at hend
    obtain ⟨hlzo, hlong⟩ := hend
    obtain ⟨-, hctx, hneed⟩ := clampRAM_of_stream (size - k.offset) hram hmax
    cases hexpand : decompressExtent dec.codec (d.drop extDataHdrSize)
        (leAt 1 extDataOffCompression d)
        (clampRAM (leAt 8 extDataOffRamBytes d) (size - k.offset)) with
    | error err =>
      simp only [itemBytes, if_neg (not_le.mpr hin), htype, if_true, hexpand]
      rfl
    | ok r =>
      refine absurd hexpand (decompressExtent_ne_ok hdec (by omega) (fun hb => ?_) r)
      have := hb hlzo
      omega
  | @regularPacked k d src stream htype hlen hdisk hpos hstop hsrc hsmall hheld hdec hram hmax
      hwindow =>
    simp only [Mapped.EndsInWindow, Mapped.len] at hend hin
    push Not at hend
    obtain ⟨hlzo, hlong⟩ := hend
    obtain ⟨phys, hphys, hread⟩ := hheld.readAt hsmall.1
    simp only [itemBytes, if_neg (not_le.mpr hin), htype, if_neg hreg, if_true,
      if_neg (not_lt.mpr hlen), if_neg hdisk]
    generalize hn : min (leAt 8 extDataOffNumBytes d) (size - k.offset) = n at hlong hwindow ⊢
    obtain ⟨-, hctx, hneed⟩ := clampRAM_of_stream (leAt 8 extDataOffOffset d + n) hram hmax
    cases hbytes : readRegularBytes B dec.codec s d n with
    | error err => rfl
    | ok b =>
      obtain ⟨-, phys', src', out, hphys', hread', hexpand, -, -⟩ :=
        (readRegularBytes_packed hdec.ne_none).mp hbytes
      rw [hphys] at hphys'
      obtain rfl := Except.ok.inj hphys'
      rw [← hsrc, hread] at hread'
      obtain rfl := Except.ok.inj hread'
      refine absurd hexpand (decompressExtent_ne_ok hdec (by omega) (fun hb => ?_) out)
      have := hb hlzo
      omega

/-! ## 3. The loop -/

theorem Designates.start_eq (h : Designates B dec s size e x) : x.start = e.1.offset := by
  cases h <;> rfl

theorem Designates.regularStop_eq (h : Designates B dec s size e x) (hseen : seenRegular size e) :
    regularStop e = x.stop := by
  obtain ⟨-, hreg, -⟩ := hseen
  cases h with
  | hole htype hlen hdisk hstop => exact Nat.mod_eq_of_lt hstop
  | prealloc htype =>
    rw [htype] at hreg
    cases hreg
  | inline htype | inlinePacked htype =>
    rw [htype] at hreg
    cases hreg
  | regular htype hlen hdisk hplain hpos hstop => exact Nat.mod_eq_of_lt hstop
  | regularPacked htype hlen hdisk hpos hstop => exact Nat.mod_eq_of_lt hstop

/-- The loop before it reaches some ranges: it has not gone beyond their beginning, and the buffer
    is blank where they lie. -/
structure Ahead (size : Nat) (acc : Assembled) (ranges : List MappedRange) : Prop where
  length : acc.out.length = size
  prevEnd : ∀ x ∈ ranges, acc.prevEnd ≤ x.start
  blank : ∀ x ∈ ranges, ∀ k < size, x.covers k = true → acc.out[k]? = some 0
  apart : ranges.Pairwise fun a b => a.stop ≤ b.start

/-- The range can be read if it begins in the file. -/
def MappedRange.Readable (size : Nat) (x : MappedRange) : Prop :=
  x.start < size → x.mapped.EndsInWindow (min x.mapped.len (size - x.start))

variable {i : InodeItem} {acc acc' : Assembled} {ranges : List MappedRange}
  {items : List (Key × Bytes)}

/-- What a turn puts down where the buffer is blank. -/
theorem putAt_fills {b out : Bytes} (hfill : x.mapped.Fills (min x.mapped.len (size - x.start)) b)
    (hin : x.start < size) (hlen : out.length = size)
    (hblank : ∀ k < size, x.covers k = true → out[k]? = some 0) {k : Nat} (hk : k < size) :
    (putAt x.start b out)[k]? =
      if x.covers k = true then some (x.mapped.byte (k - x.start)) else out[k]? := by
  rcases hfill with ⟨rfl, hzero⟩ | ⟨hb, hbytes⟩
  · rw [putAt_nil]
    split_ifs with hcov
    · rw [hblank k hk hcov, hzero]
    · rfl
  · rw [getElem?_putAt (by omega)]
    have hcov := MappedRange.covers_iff (k := k) (x := x)
    by_cases hhit : x.start ≤ k ∧ k < x.start + b.length
    · rw [if_pos hhit, if_pos (hcov.mpr (by omega))]
      exact hbytes _ (by omega)
    · rw [if_neg hhit, if_neg (fun h => hhit (by have := hcov.mp h; omega))]

/-- One turn for a range that can be read. -/
theorem Ahead.turn (ha : Ahead i.size acc (x :: ranges)) (hx : Designates B dec s i.size e x)
    (hread : x.Readable i.size) :
    ∃ acc', readExtent B dec.codec s i acc e = .ok acc' ∧ Ahead i.size acc' ranges ∧
      ∀ k < i.size, acc'.out[k]? =
        if x.covers k = true then some (x.mapped.byte (k - x.start)) else acc.out[k]? := by
  obtain ⟨hlen, hprev, hblank, hapart⟩ := ha
  obtain ⟨hfirst, hapart⟩ := List.pairwise_cons.mp hapart
  have hprev₀ : acc.prevEnd ≤ e.1.offset := hx.start_eq ▸ hprev x List.mem_cons_self
  have hok : ¬ overlapsLast i.size acc.prevEnd e := by
    rintro ⟨hseen, hbad⟩
    have hstop := hx.regularStop_eq hseen
    have hle : x.start ≤ x.stop := Nat.le_add_right _ _
    rw [hx.start_eq] at hle
    omega
  obtain ⟨b, hb, hput⟩ : ∃ b, itemBytes B dec.codec s i.size e = some b ∧ ∀ k < i.size,
      (putAt e.1.offset b acc.out)[k]? =
        if x.covers k = true then some (x.mapped.byte (k - x.start)) else acc.out[k]? := by
    by_cases hin : e.1.offset < i.size
    · have hin' : x.start < i.size := hx.start_eq ▸ hin
      obtain ⟨b, hb, hfill⟩ := hx.itemBytes_eq hin (hread hin')
      refine ⟨b, hb, fun k hk => ?_⟩
      rw [← hx.start_eq]
      exact putAt_fills hfill hin' hlen (hblank x List.mem_cons_self) hk
    · refine ⟨[], by rw [itemBytes, if_pos (not_lt.mp hin)], fun k hk => ?_⟩
      have hcov : ¬ x.covers k = true := by
        rw [MappedRange.covers_iff, hx.start_eq]
        omega
      rw [putAt_nil, if_neg hcov]
  have hturn : readExtent B dec.codec s i acc e =
      .ok ⟨putAt e.1.offset b acc.out, nextEnd i.size acc.prevEnd e⟩ := by
    apply toOption_eq_some.mp
    rw [readExtent_toOption, if_neg hok, hb]
    rfl
  refine ⟨_, hturn, ⟨readExtent_length hturn hlen, ?_, ?_, hapart⟩, hput⟩
  · intro y hy
    dsimp only [nextEnd]
    split_ifs with hseen
    · rw [hx.regularStop_eq hseen]
      exact hfirst y hy
    · exact hprev y (List.mem_cons_of_mem _ hy)
  · intro y hy k hk hcov
    -- a later range does not cover what this one does
    have hnot : ¬ x.covers k = true := MappedRange.not_covers_of_le (hfirst y hy) hcov
    rw [hput k hk, if_neg hnot]
    exact hblank y (List.mem_cons_of_mem _ hy) k hk hcov

theorem Ahead.run (ha : Ahead i.size acc ranges)
    (hitems : List.Forall₂ (Designates B dec s i.size) items ranges)
    (hread : ∀ x ∈ ranges, x.Readable i.size) :
    ∃ acc', items.foldlM (readExtent B dec.codec s i) acc = .ok acc' ∧ acc'.out.length = i.size ∧
      ∀ k < i.size, acc'.out[k]? =
        match ranges.find? (·.covers k) with
        | some x => some (x.mapped.byte (k - x.start))
        | none => acc.out[k]? := by
  induction hitems generalizing acc with
  | nil => exact ⟨acc, rfl, ha.length, fun k hk => rfl⟩
  | @cons e x items ranges hx hrest ih =>
    obtain ⟨acc₁, hturn, ha₁, hput⟩ := ha.turn hx (hread x List.mem_cons_self)
    obtain ⟨acc', hfold, hlen, hout⟩ := ih ha₁ fun y hy => hread y (List.mem_cons_of_mem _ hy)
    refine ⟨acc', foldlM_cons_eq_ok.mpr ⟨acc₁, hturn, hfold⟩, hlen, fun k hk => ?_⟩
    have hfirst := (List.pairwise_cons.mp ha.apart).1
    rw [hout k hk, hput k hk, List.find?_cons]
    by_cases hcov : x.covers k = true
    · have hnone : ranges.find? (·.covers k) = none :=
        List.find?_eq_none.mpr fun y hy hy' => MappedRange.not_covers_of_le (hfirst y hy) hy' hcov
      simp only [hnone, hcov, if_true]
    · simp only [hcov]
      rfl

/-- A range that cannot be read ends the loop. -/
theorem Ahead.run_fails (ha : Ahead i.size acc ranges)
    (hitems : List.Forall₂ (Designates B dec s i.size) items ranges)
    (hread : ¬ ∀ x ∈ ranges, x.Readable i.size) :
    items.foldlM (readExtent B dec.codec s i) acc ≠ .ok acc' := by
  induction hitems generalizing acc with
  | nil => exact absurd (fun x hx => absurd hx List.not_mem_nil) hread
  | @cons e x items ranges hx hrest ih =>
    intro hfold
    obtain ⟨acc₁, hturn, hfold⟩ := foldlM_cons_eq_ok.mp hfold
    by_cases hxread : x.Readable i.size
    · obtain ⟨acc₂, hturn', ha₂, -⟩ := ha.turn hx hxread
      rw [hturn] at hturn'
      obtain rfl := Except.ok.inj hturn'
      refine ih ha₂ (fun hall => hread fun y hy => ?_) hfold
      rcases List.mem_cons.mp hy with rfl | hmem
      · exact hxread
      · exact hall y hmem
    · unfold MappedRange.Readable at hxread
      push Not at hxread
      have hin : e.1.offset < i.size := hx.start_eq ▸ hxread.1
      obtain ⟨b, hb, -⟩ := readExtent_out hturn ha.length
      rw [hx.itemBytes_none hin hxread.2] at hb
      cases hb

/-! ## 4. The file -/

/-- The content of a file is what its ranges designate. -/
structure FollowsMap (size : Nat) (ranges : List MappedRange) (content : Bytes) : Prop where
  length : content.length = size
  byte : ∀ k < size, content[k]? = some (designated ranges k)

/-- The items of a file, as `collectPrefixItems` hands them out: no item is an error. -/
structure ItemsOf (B : Backend σ) (s : σ) (ino : Nat) (items : List (Key × Bytes)) : Prop where
  some : items ≠ [] → B.collectPrefixItems s ino typeExtentData = .ok items
  none : items = [] → ∃ e, B.collectPrefixItems s ino typeExtentData = .error e

theorem ahead_zeros (size : Nat) (hapart : ranges.Pairwise fun a b => a.stop ≤ b.start) :
    Ahead size ⟨zeros size, 0⟩ ranges := by
  refine ⟨List.length_replicate, fun _ _ => Nat.zero_le _, fun _ _ k hk _ => ?_, hapart⟩
  rw [zeros, List.getElem?_replicate, if_pos hk]

/-- A file that is read has an item if it has a byte, and all its ranges can be read. -/
theorem readable_of_readFileData {content : Bytes} (hof : ItemsOf B s i.num items)
    (hitems : List.Forall₂ (Designates B dec s i.size) items ranges)
    (hapart : ranges.Pairwise fun a b => a.stop ≤ b.start)
    (hread : readFileData B dec.codec s i = .ok content) :
    (i.size = 0 ∨ items ≠ []) ∧ ∀ x ∈ ranges, x.Readable i.size := by
  by_cases hzero : i.size = 0
  · exact ⟨Or.inl hzero, fun x _ hin => absurd hin (by omega)⟩
  by_cases hnil : items = []
  · obtain ⟨e, he⟩ := hof.none hnil
    rw [readFileData, if_neg hzero, he] at hread
    cases hread
  refine ⟨Or.inr hnil, ?_⟩
  by_contra hbad
  obtain ⟨-, acc, hfold, -⟩ := readFileData_inv hread hzero (hof.some hnil)
  exact (ahead_zeros i.size hapart).run_fails hitems hbad hfold

/-- **`readFileData` and the extent map.**  A file of at most 1 GiB with well-formed items reads as
    its map exactly when it is empty or has an item, and each LZO stream ends with the window that
    is used of it. -/
theorem readFileData_map_iff (hof : ItemsOf B s i.num items)
    (hitems : List.Forall₂ (Designates B dec s i.size) items ranges)
    (hapart : ranges.Pairwise fun a b => a.stop ≤ b.start) (hsize : i.size ≤ 2 ^ 30) :
    (∃ content, readFileData B dec.codec s i = .ok content ∧ FollowsMap i.size ranges content) ↔
      (i.size = 0 ∨ items ≠ []) ∧ ∀ x ∈ ranges, x.Readable i.size := by
  constructor
  · rintro ⟨content, hread, -⟩
    exact readable_of_readFileData hof hitems hapart hread
  · rintro ⟨hsome, hread⟩
    by_cases hzero : i.size = 0
    · refine ⟨[], by rw [readFileData, if_pos hzero], by rw [hzero]; rfl, fun k hk => ?_⟩
      omega
    have hitems' := hof.some (hsome.resolve_left hzero)
    obtain ⟨acc, hfold, hlen, hout⟩ := (ahead_zeros i.size hapart).run hitems hread
    refine ⟨acc.out, ?_, hlen, fun k hk => ?_⟩
    · have hceil : ¬ hardSizeCeiling < i.size := not_lt.mpr hsize
      simp only [readFileData, if_neg hzero, hitems', if_neg hceil, hfold]
      rfl
    · rw [hout k hk, designated]
      cases ranges.find? (·.covers k) with
      | none => rw [zeros, List.getElem?_replicate, if_pos hk]
      | some x => rfl

/-! ## 5. A window of an LZO extent -/

/-- LZO segments that are one run of literals and the end marker. -/
def literalRun : Bytes → Except Err Bytes
  | [] => .error (.errorf "lzo: empty" [])
  | t :: rest =>
    if 4 ≤ t.toNat - 17 ∧ rest.drop (t.toNat - 17) = [0x11, 0, 0] then .ok (rest.take (t.toNat - 17))
    else .error (.errorf "lzo: not a run of literals" [])

theorem literalRun_le (src b : Bytes) (h : literalRun src = .ok b) :
    b.length ≤ btrfsLzoPageSize := by
  cases src with
  | nil => cases h
  | cons t rest =>
    simp only [literalRun] at h
    split_ifs at h
    obtain rfl := Except.ok.inj h
    have ht := t.toNat_lt
    rw [List.length_take, btrfsLzoPageSize]
    omega

def literalDecoders : Decoders where
  zlib _ := .error (.errorf "zlib: invalid header" [])
  zstd _ := .error (.errorf "magic number mismatch" [])
  lzo := literalRun
  lzo_le := literalRun_le

/-- One segment of eight bytes. -/
def lzoExtent : Bytes := leBytes 4 20 ++ leBytes 4 12 ++ [25, 1, 2, 3, 4, 5, 6, 7, 8, 0x11, 0, 0]

/-- An EXTENT_DATA payload for the first bytes of the extent. -/
def lzoWindow (num : Nat) : Bytes :=
  leBytes 8 1 ++ leBytes 8 8 ++ [2, 0, 0, 0, 1] ++ leBytes 8 0x600000 ++ leBytes 8 20 ++
    leBytes 8 0 ++ leBytes 8 num

def lzoItem (num : Nat) : Key × Bytes := (⟨257, typeExtentData, 0⟩, lzoWindow num)

/-- A file that uses the first `num` bytes of the extent. -/
def lzoFs (num : Nat) : MapFs :=
  { fmtMap with
    records := fmtMap.records.insert (lzoItem num).1 (lzoItem num).2
    vol := { fmtMap.vol with dev := [⟨0x600000, 20, .data lzoExtent⟩] } }

def lzoRange (num : Nat) : MappedRange := ⟨0, .packed compressionLzo [1, 2, 3, 4, 5, 6, 7, 8] 0 num⟩

theorem framed_lzoExtent : Framed literalDecoders lzoExtent [1, 2, 3, 4, 5, 6, 7, 8] := by
  refine ⟨by decide, by decide, ?_⟩
  have hseg : Segments literalDecoders lzoExtent 20 4 ([1, 2, 3, 4, 5, 6, 7, 8] ++ []) :=
    Segments.seg (by decide) (by decide) (by decide) (Segments.done (by decide))
  exact hseg

theorem holdsBytes_lzoExtent :
    HoldsBytes fmtMap.sb [⟨0x600000, 20, .data lzoExtent⟩] 0x600000 lzoExtent := by
  have hcells : (∀ j < lzoExtent.length, fmtMap.sb.lookupChunk (0x600000 + j) =
        .ok ⟨0x500000, 0xB00000, 0x500000, blockGroupData ||| blockGroupMeta⟩) ∧
      ∀ j < lzoExtent.length, fmtMap.sb.physAddr (0x600000 + j) = .ok (0x600000 + j) ∧
        WriteLog.cellAt Payload.bytes? [⟨0x600000, 20, .data lzoExtent⟩] (0x600000 + j) =
          lzoExtent[j]? := by decide +kernel
  exact ⟨⟨_, hcells.1⟩, fun j hj => ⟨_, hcells.2 j hj⟩⟩

theorem designates_lzoItem {num : Nat} (hpos : 0 < num) (hle : num ≤ 8) :
    Designates mapBackend literalDecoders (lzoFs num) num (lzoItem num) (lzoRange num) := by
  have hfields : ∀ n ≤ 8, extentType (lzoWindow n) = some extentDataRegular ∧
      extDataRegularSize ≤ (lzoWindow n).length ∧
      leAt 8 extDataOffDiskBytenr (lzoWindow n) = 0x600000 ∧
      leAt 8 extDataOffNumBytes (lzoWindow n) = n ∧
      leAt 8 extDataOffDiskNumBytes (lzoWindow n) = lzoExtent.length ∧
      leAt 1 extDataOffCompression (lzoWindow n) = compressionLzo ∧
      leAt 8 extDataOffRamBytes (lzoWindow n) = 8 ∧
      leAt 8 extDataOffOffset (lzoWindow n) = 0 := by decide +kernel
  obtain ⟨htype, hlen, hdisk, hnum, hsrc, hcomp, hram, hoff⟩ := hfields num hle
  have hstream : StreamOf literalDecoders (leAt 1 extDataOffCompression (lzoWindow num)) lzoExtent
      [1, 2, 3, 4, 5, 6, 7, 8] := by
    rw [hcomp]
    exact StreamOf.lzo framed_lzoExtent
  have hheld : HoldsBytes (mapBackend.sb (lzoFs num)) (mapBackend.vol (lzoFs num)).dev
      (leAt 8 extDataOffDiskBytenr (lzoWindow num)) lzoExtent := by
    rw [hdisk]
    exact holdsBytes_lzoExtent
  have h := Designates.regularPacked (k := ⟨257, typeExtentData, 0⟩) htype hlen (by rw [hdisk]; decide)
    (by rw [hnum]; exact hpos) (by rw [hnum]; simp only; omega) hsrc.symm (by decide) hheld hstream
    (by rw [hram]; decide) (by decide)
    (show leAt 8 extDataOffOffset (lzoWindow num) +
      min (leAt 8 extDataOffNumBytes (lzoWindow num)) (num - 0) ≤ 8 by rw [hoff, hnum]; omega)
  rw [hcomp, hoff, hnum] at h
  exact h

theorem itemsOf_lzoFs : ∀ num ≤ 8, ItemsOf mapBackend (lzoFs num) 257 [lzoItem num] := by
  have hcollect : ∀ num ≤ 8, mapBackend.collectPrefixItems (lzoFs num) 257 typeExtentData =
      .ok [lzoItem num] := by decide +kernel
  exact fun num hle => ⟨fun _ => hcollect num hle, nofun⟩

/-- All of the extent. -/
theorem readFileData_map_lzo : ∃ content,
    readFileData mapBackend literalDecoders.codec (lzoFs 8) ⟨257, 0x81A4, 8, 1⟩ = .ok content ∧
      FollowsMap 8 [lzoRange 8] content := by
  refine (readFileData_map_iff (itemsOf_lzoFs 8 (by decide))
    (.cons (designates_lzoItem (by decide) (by decide)) .nil) (List.pairwise_singleton _ _)
    (by decide)).mpr ⟨Or.inr (List.cons_ne_nil _ _), ?_⟩
  intro x hx
  obtain rfl := List.mem_singleton.mp hx
  intro _ _
  decide

/-- The first half of the extent: the decoder stops at the bound on its output. -/
theorem readFileData_lzo_window : ItemsOf mapBackend (lzoFs 4) 257 [lzoItem 4] ∧
    List.Forall₂ (Designates mapBackend literalDecoders (lzoFs 4) 4) [lzoItem 4] [lzoRange 4] ∧
    ¬ ∃ content, readFileData mapBackend literalDecoders.codec (lzoFs 4) ⟨257, 0x81A4, 4, 1⟩ =
      .ok content ∧ FollowsMap 4 [lzoRange 4] content := by
  have hof := itemsOf_lzoFs 4 (by decide)
  have hitems : List.Forall₂ (Designates mapBackend literalDecoders (lzoFs 4) 4) [lzoItem 4]
      [lzoRange 4] := .cons (designates_lzoItem (by decide) (by decide)) .nil
  refine ⟨hof, hitems, ?_⟩
  rintro ⟨content, hread, -⟩
  have hall := readable_of_readFileData (i := ⟨257, 0x81A4, 4, 1⟩) hof hitems
    (List.pairwise_singleton _ _) hread
  have hbad := hall.2 (lzoRange 4) (List.mem_singleton_self _) (by decide) rfl
  exact absurd hbad (by decide)

end Btrfs
