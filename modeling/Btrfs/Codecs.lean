/-
  Btrfs/Codecs.lean
  =================
  **Compressed extents** — `decompressExtent` of `read.go` and `lzo.go`.

  The decoders of the libraries are parameters: zlib and zstd as readers, which deliver
  bytes and may then fail, LZO as a function on one segment.  The framing of segments in
  an LZO extent is the code's own and is modelled here.

  The caller bounds the output.  For zlib and zstd the reader is cut off behind the bound,
  so a longer stream is read in part.  The LZO loop fails instead when a segment goes
  beyond it (`decompressExtent_stream`).
-/
import Btrfs.ExtentBytes

namespace Btrfs

open Lib

/-! ## 1. Decoders -/

def compressionZlib : Nat := 1

def compressionLzo : Nat := 2

def compressionZstd : Nat := 3

def btrfsLzoPageSize : Nat := 4096

/-- What a decompressing reader delivers, and the error it ends with if it does not reach the end
    of its stream. -/
structure Stream where
  bytes : Bytes
  err : Option Err
  deriving DecidableEq, Repr

/-- The decoders of the libraries.  A segment is decoded into a buffer of one page. -/
structure Decoders where
  zlib : Bytes → Except Err Stream
  zstd : Bytes → Except Err Stream
  lzo : Bytes → Except Err Bytes
  lzo_le : ∀ src b, lzo src = .ok b → b.length ≤ btrfsLzoPageSize

def decompressLimit (ramBytes : Nat) : Nat := min ramBytes maxDecompressRAM + 1

/-- All of a stream up to a number of bytes.  An error behind them is not seen. -/
def readAllLimited (limit : Nat) (st : Stream) : Except Err Bytes :=
  if limit ≤ st.bytes.length then .ok (st.bytes.take limit)
  else
    match st.err with
    | none => .ok st.bytes
    | some e => .error e

/-! ## 2. The framing of LZO segments -/

/-- Where the next segment header begins: it may not straddle a page boundary. -/
def lzoHeader (pos : Nat) : Nat :=
  if pos / btrfsLzoPageSize ≠ (pos + 4 - 1) / btrfsLzoPageSize then
    (pos / btrfsLzoPageSize + 1) * btrfsLzoPageSize
  else pos

theorem le_lzoHeader (pos : Nat) : pos ≤ lzoHeader pos := by
  unfold lzoHeader btrfsLzoPageSize
  split_ifs <;> omega

/-- The loop over the segments of an extent that ends at `stop`. -/
def lzoSegments (dec : Decoders) (src : Bytes) (ramBytes limit stop pos : Nat) (out : Bytes) :
    Except Err Bytes :=
  if _h : pos < stop then
    let hdr := lzoHeader pos
    have _hle : pos ≤ hdr := le_lzoHeader pos
    if stop ≤ hdr then .ok out
    else if stop < hdr + 4 then
      .error (.errorf "lzo: truncated segment header at offset %d" [.num hdr])
    else
      let segLen := leAt 4 hdr src
      if segLen = 0 then lzoSegments dec src ramBytes limit stop (hdr + 4) out
      else if stop - (hdr + 4) < segLen then
        .error (.errorf "lzo: segment length %d exceeds remaining %d"
          [.num segLen, .num (stop - (hdr + 4) : Nat)])
      else
        match dec.lzo ((src.drop (hdr + 4)).take segLen) with
        | .error e => .error (.wrap "lzo: segment at offset %d: %w" [.num hdr] e)
        | .ok b =>
          if limit < out.length + b.length then
            .error (.errorf "lzo: decompressed size exceeds ram_bytes %d" [.num ramBytes])
          else lzoSegments dec src ramBytes limit stop (hdr + 4 + segLen) (out ++ b)
  else .ok out
termination_by stop - pos

/-- The bound on the output: the declared size, the largest extent there is, and what so many
    segments can hold. -/
def lzoLimit (totalSize ramBytes : Nat) : Nat :=
  min (min (if ramBytes = 0 then totalSize * 16 else ramBytes) maxDecompressRAM)
    ((totalSize / 5 + 1) * btrfsLzoPageSize)

def decompressLzo (dec : Decoders) (src : Bytes) (ramBytes : Nat) : Except Err Bytes :=
  if src.length < 4 then
    .error (.errorf "lzo: extent too short (%d bytes) for header" [.num src.length])
  else
    let totalSize := leAt 4 0 src
    if src.length < totalSize ∨ totalSize < 4 then
      .error (.errorf "lzo: invalid total_size %d (buffer %d)" [.num totalSize, .num src.length])
    else lzoSegments dec src ramBytes (lzoLimit totalSize ramBytes) totalSize 4 []

def decompressZlib (dec : Decoders) (src : Bytes) (ramBytes : Nat) : Except Err Bytes :=
  match dec.zlib src with
  | .error e => .error (.wrap "zlib reader: %w" [] e)
  | .ok st =>
    match readAllLimited (decompressLimit ramBytes) st with
    | .error e => .error (.wrap "zlib decompress: %w" [] e)
    | .ok b => .ok b

def decompressZstd (dec : Decoders) (src : Bytes) (ramBytes : Nat) : Except Err Bytes :=
  match dec.zstd src with
  | .error e => .error (.wrap "zstd reader: %w" [] e)
  | .ok st =>
    match readAllLimited (decompressLimit ramBytes) st with
    | .error e => .error (.wrap "zstd decompress: %w" [] e)
    | .ok b => .ok b

/-- The compressed cases of `decompressExtent`. -/
def Decoders.codec (dec : Decoders) : Codec := fun compression src ramBytes =>
  if compression = compressionZlib then decompressZlib dec src ramBytes
  else if compression = compressionLzo then decompressLzo dec src ramBytes
  else if compression = compressionZstd then decompressZstd dec src ramBytes
  else .error (.errorf "btrfs: unknown compression code %d" [.num compression])

/-! ## 3. Complete streams -/

/-- From `pos` on, `src` is a sequence of segments that stand for some bytes. -/
inductive Segments (dec : Decoders) (src : Bytes) (stop : Nat) : Nat → Bytes → Prop
  | done {pos : Nat} (h : stop ≤ lzoHeader pos) : Segments dec src stop pos []
  | seg {pos : Nat} {b rest : Bytes} (hpos : 0 < leAt 4 (lzoHeader pos) src)
      (hin : lzoHeader pos + 4 + leAt 4 (lzoHeader pos) src ≤ stop)
      (hdec : dec.lzo ((src.drop (lzoHeader pos + 4)).take (leAt 4 (lzoHeader pos) src)) = .ok b)
      (hrest : Segments dec src stop (lzoHeader pos + 4 + leAt 4 (lzoHeader pos) src) rest) :
      Segments dec src stop pos (b ++ rest)

/-- A complete LZO extent. -/
structure Framed (dec : Decoders) (src plain : Bytes) : Prop where
  header : 4 ≤ leAt 4 0 src
  inside : leAt 4 0 src ≤ src.length
  segments : Segments dec src (leAt 4 0 src) 4 plain

/-- `src` is a complete stream of the code for the bytes `plain`. -/
inductive StreamOf (dec : Decoders) : Nat → Bytes → Bytes → Prop
  | zlib {src plain : Bytes} (h : dec.zlib src = .ok ⟨plain, none⟩) :
      StreamOf dec compressionZlib src plain
  | lzo {src plain : Bytes} (h : Framed dec src plain) : StreamOf dec compressionLzo src plain
  | zstd {src plain : Bytes} (h : dec.zstd src = .ok ⟨plain, none⟩) :
      StreamOf dec compressionZstd src plain

variable {dec : Decoders} {src plain out : Bytes} {ramBytes limit stop pos : Nat}

theorem StreamOf.ne_none {compression : Nat} (h : StreamOf dec compression src plain) :
    compression ≠ compressionNone := by
  cases h <;> decide

/-- A segment takes five bytes or more and holds at most a page. -/
theorem Segments.length_le (h : Segments dec src stop pos plain) :
    5 * plain.length ≤ (stop - pos) * btrfsLzoPageSize := by
  induction h with
  | done h => exact Nat.zero_le _
  | @seg pos b rest hpos hin hdec hrest ih =>
    have hb := dec.lzo_le _ _ hdec
    have hle := le_lzoHeader pos
    rw [List.length_append]
    unfold btrfsLzoPageSize at *
    omega

/-- The loop succeeds when the whole of the output is within the bound. -/
theorem lzoSegments_ok (h : Segments dec src stop pos plain)
    (hfits : out.length + plain.length ≤ limit) :
    lzoSegments dec src ramBytes limit stop pos out = .ok (out ++ plain) := by
  induction h generalizing out with
  | done h =>
    rw [lzoSegments, List.append_nil]
    simp only [h, if_true, dite_eq_ite, ite_self]
  | @seg pos b rest hpos hin hdec hrest ih =>
    have hle := le_lzoHeader pos
    rw [List.length_append] at hfits
    rw [lzoSegments, dif_pos (by omega)]
    simp only [hdec]
    rw [if_neg (by omega), if_neg (by omega), if_neg (by omega), if_neg (by omega),
      if_neg (by omega), ih (by rw [List.length_append]; omega), List.append_assoc]

theorem lzoSegments_too_long (h : Segments dec src stop pos plain) (hout : out.length ≤ limit)
    (hlong : limit < out.length + plain.length) (r : Bytes) :
    lzoSegments dec src ramBytes limit stop pos out ≠ .ok r := by
  induction h generalizing out with
  | done h =>
    rw [List.length_nil] at hlong
    omega
  | @seg pos b rest hpos hin hdec hrest ih =>
    have hle := le_lzoHeader pos
    rw [List.length_append] at hlong
    rw [lzoSegments, dif_pos (by omega)]
    simp only [hdec]
    rw [if_neg (by omega), if_neg (by omega), if_neg (by omega), if_neg (by omega)]
    split_ifs with hover
    · exact nofun
    · have hlen : (out ++ b).length = out.length + b.length := List.length_append
      exact ih (by omega) (by omega)

/-- The stream is within the bound where that matters. -/
def WithinBound (compression ramBytes : Nat) (plain : Bytes) : Prop :=
  compression = compressionLzo → plain.length ≤ ramBytes

theorem readAllLimited_complete (limit : Nat) :
    readAllLimited limit ⟨plain, none⟩ = .ok (plain.take limit) := by
  unfold readAllLimited
  split_ifs with h
  · rfl
  · rw [List.take_of_length_le (not_le.mp h).le]

theorem decompressLzo_eq (h : Framed dec src plain) (ramBytes : Nat) :
    decompressLzo dec src ramBytes =
      lzoSegments dec src ramBytes (lzoLimit (leAt 4 0 src) ramBytes) (leAt 4 0 src) 4 [] := by
  obtain ⟨hheader, hinside, -⟩ := h
  simp only [decompressLzo]
  rw [if_neg (by omega), if_neg (by omega)]

theorem Framed.length_le (h : Framed dec src plain) :
    plain.length ≤ (leAt 4 0 src / 5 + 1) * btrfsLzoPageSize := by
  have hlen := h.segments.length_le
  unfold btrfsLzoPageSize at *
  omega

/-- A complete extent expands to all of its bytes, if they are within the bounds. -/
theorem Framed.decompressLzo_ok (h : Framed dec src plain)
    (hle : plain.length ≤ min ramBytes maxDecompressRAM) :
    decompressLzo dec src ramBytes = .ok plain := by
  have hseg := h.length_le
  have hfits : ([] : Bytes).length + plain.length ≤ lzoLimit (leAt 4 0 src) ramBytes := by
    rw [List.length_nil, lzoLimit]
    split_ifs <;> omega
  rw [decompressLzo_eq h, lzoSegments_ok h.segments hfits, List.nil_append]

/-- What a complete stream expands to under a bound. -/
theorem decompressExtent_stream {compression : Nat} (h : StreamOf dec compression src plain)
    (hram : ramBytes ≤ maxDecompressRAM) (hbound : WithinBound compression ramBytes plain) :
    decompressExtent dec.codec src compression ramBytes = .ok (plain.take (ramBytes + 1)) := by
  have hlimit : decompressLimit ramBytes = ramBytes + 1 := by
    rw [decompressLimit, Nat.min_eq_left hram]
  rw [decompressExtent, if_neg h.ne_none]
  cases h with
  | zlib h =>
    simp [Decoders.codec, decompressZlib, h, readAllLimited_complete, hlimit]
  | zstd h =>
    simp [Decoders.codec, decompressZstd, h, readAllLimited_complete, hlimit, compressionZstd,
      compressionZlib, compressionLzo]
  | lzo h =>
    have hle := hbound rfl
    simp only [Decoders.codec, h.decompressLzo_ok (show plain.length ≤ min ramBytes maxDecompressRAM by omega),
      List.take_of_length_le (show plain.length ≤ ramBytes + 1 by omega)]
    rfl

/-- An LZO stream that goes on behind the bound does not expand. -/
theorem decompressExtent_ne_ok {compression : Nat} (h : StreamOf dec compression src plain)
    (hpos : ramBytes ≠ 0) (hbound : ¬ WithinBound compression ramBytes plain) (r : Bytes) :
    decompressExtent dec.codec src compression ramBytes ≠ .ok r := by
  unfold WithinBound at hbound
  push Not at hbound
  obtain ⟨rfl, hlong⟩ := hbound
  rw [decompressExtent, if_neg h.ne_none]
  cases h with
  | lzo h =>
    have hlimit : lzoLimit (leAt 4 0 src) ramBytes ≤ ramBytes := by
      unfold lzoLimit
      rw [if_neg hpos]
      omega
    have hover : lzoLimit (leAt 4 0 src) ramBytes < ([] : Bytes).length + plain.length := by
      rw [List.length_nil]
      omega
    exact (decompressLzo_eq h ramBytes).trans_ne
      (lzoSegments_too_long h.segments (Nat.zero_le _) hover r)

end Btrfs
