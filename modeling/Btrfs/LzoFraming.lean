/-
  Btrfs/LzoFraming.lean
  =====================
  **The framing of LZO extents** — `decompressLzo` of `lzo.go`.

  An extent is its total size and a list of segments, each with its length before it; a
  length is never split by a page boundary.  The decoder finds the segments again, at any
  place in the page, and stops at the total size (`lzo_framing`).

  `Codecs.lean` reads the extent by total functions.  Here every access is checked; the two
  agree, so no input makes the decoder read beyond it.
-/
import Btrfs.Codecs
import Btrfs.Lib.Checked

namespace Btrfs

open Lib

variable {dec : Decoders} {src plain out r : Bytes} {ramBytes limit stop pos : Nat}

/-! ## 1. The decoder with checked accesses -/

namespace Raw

/-- The loop over the segments. -/
def lzoSegments (dec : Decoders) (src : Bytes) (ramBytes limit stop pos : Nat) (out : Bytes) :
    Checked Err Bytes :=
  if _h : pos < stop then
    let hdr := lzoHeader pos
    have _hle : pos ≤ hdr := le_lzoHeader pos
    if stop ≤ hdr then .ok out
    else if stop < hdr + 4 then
      .error (.err (.errorf "lzo: truncated segment header at offset %d" [.num hdr]))
    else do
      let segLen ← fieldAt 4 hdr src
      if segLen = 0 then lzoSegments dec src ramBytes limit stop (hdr + 4) out
      else if stop - (hdr + 4) < segLen then
        .error (.err (.errorf "lzo: segment length %d exceeds remaining %d"
          [.num segLen, .num (stop - (hdr + 4) : Nat)]))
      else do
        let seg ← slice src (hdr + 4) (hdr + 4 + segLen)
        match dec.lzo seg with
        | .error e => .error (.err (.wrap "lzo: segment at offset %d: %w" [.num hdr] e))
        | .ok b =>
          if limit < out.length + b.length then
            .error (.err (.errorf "lzo: decompressed size exceeds ram_bytes %d" [.num ramBytes]))
          else lzoSegments dec src ramBytes limit stop (hdr + 4 + segLen) (out ++ b)
  else .ok out
termination_by stop - pos

def decompressLzo (dec : Decoders) (src : Bytes) (ramBytes : Nat) : Checked Err Bytes :=
  if src.length < 4 then
    .error (.err (.errorf "lzo: extent too short (%d bytes) for header" [.num src.length]))
  else do
    let totalSize ← fieldAt 4 0 src
    if src.length < totalSize ∨ totalSize < 4 then
      .error (.err (.errorf "lzo: invalid total_size %d (buffer %d)" [.num totalSize, .num src.length]))
    else lzoSegments dec src ramBytes (lzoLimit totalSize ramBytes) totalSize 4 []

end Raw

/-- Every access of the loop lies before `stop`. -/
theorem raw_lzoSegments (hstop : stop ≤ src.length) :
    Raw.lzoSegments dec src ramBytes limit stop pos out =
      Checked.ofExcept (lzoSegments dec src ramBytes limit stop pos out) := by
  induction hm : stop - pos using Nat.strong_induction_on generalizing pos out with
  | _ m ih =>
    have hle := le_lzoHeader pos
    rw [Raw.lzoSegments, lzoSegments]
    by_cases hpos : pos < stop
    · rw [dif_pos hpos, dif_pos hpos]
      dsimp only
      by_cases hdone : stop ≤ lzoHeader pos
      · rw [if_pos hdone, if_pos hdone]
        rfl
      rw [if_neg hdone, if_neg hdone]
      by_cases hcut : stop < lzoHeader pos + 4
      · rw [if_pos hcut, if_pos hcut]
        rfl
      rw [if_neg hcut, if_neg hcut, fieldAt_of_le (by omega), Checked.ok_bind]
      by_cases hzero : leAt 4 (lzoHeader pos) src = 0
      · rw [if_pos hzero, if_pos hzero, ih _ (by omega) rfl]
      rw [if_neg hzero, if_neg hzero]
      by_cases hlong : stop - (lzoHeader pos + 4) < leAt 4 (lzoHeader pos) src
      · rw [if_pos hlong, if_pos hlong]
        rfl
      rw [if_neg hlong, if_neg hlong, slice_of_le (by omega) (by omega), Checked.ok_bind,
        Nat.add_sub_cancel_left]
      cases dec.lzo ((src.drop (lzoHeader pos + 4)).take (leAt 4 (lzoHeader pos) src)) with
      | error e => rfl
      | ok b =>
        dsimp only
        by_cases hover : limit < out.length + b.length
        · rw [if_pos hover, if_pos hover]
          rfl
        · rw [if_neg hover, if_neg hover, ih _ (by omega) rfl]
    · rw [dif_neg hpos, dif_neg hpos]
      rfl

theorem raw_decompressLzo (dec : Decoders) (src : Bytes) (ramBytes : Nat) :
    Raw.decompressLzo dec src ramBytes = Checked.ofExcept (decompressLzo dec src ramBytes) := by
  rw [Raw.decompressLzo, decompressLzo]
  by_cases hshort : src.length < 4
  · rw [if_pos hshort, if_pos hshort]
    rfl
  rw [if_neg hshort, if_neg hshort, fieldAt_of_le (by omega), Checked.ok_bind]
  dsimp only
  by_cases hbad : src.length < leAt 4 0 src ∨ leAt 4 0 src < 4
  · rw [if_pos hbad, if_pos hbad]
    rfl
  · rw [if_neg hbad, if_neg hbad]
    exact raw_lzoSegments (by omega)

/-! ## 2. The bound on the output -/

theorem lzoSegments_length_le (hout : out.length ≤ limit)
    (h : lzoSegments dec src ramBytes limit stop pos out = .ok r) : r.length ≤ limit := by
  induction hm : stop - pos using Nat.strong_induction_on generalizing pos out with
  | _ m ih =>
    have hle := le_lzoHeader pos
    rw [lzoSegments] at h
    split_ifs at h with hpos
    · dsimp only at h
      split_ifs at h with hdone hcut hzero hlong
      · cases h; exact hout
      · exact ih _ (by omega) hout h rfl
      · split at h
        · cases h
        · next b hb =>
          split_ifs at h with hover
          exact ih _ (by omega) (by rw [List.length_append]; omega) h rfl
    · cases h
      exact hout

/-- What the output may take: the declared size, or sixteen times the input if none is declared,
    and never more than the largest extent there is. -/
def lzoBound (src : Bytes) (ramBytes : Nat) : Nat :=
  min (if ramBytes = 0 then leAt 4 0 src * 16 else ramBytes) maxDecompressRAM

theorem decompressLzo_length_le (h : decompressLzo dec src ramBytes = .ok r) :
    r.length ≤ lzoBound src ramBytes := by
  simp only [decompressLzo] at h
  split_ifs at h
  have hle := lzoSegments_length_le (Nat.zero_le _) h
  exact hle.trans (min_le_left _ _)

/-! ## 3. Framing -/

/-- The zeros before the next segment header: as many as are left of the page if it does not hold
    a header any more. -/
def lzoPad (pos : Nat) : Nat :=
  if btrfsLzoPageSize - pos % btrfsLzoPageSize < 4 then btrfsLzoPageSize - pos % btrfsLzoPageSize
  else 0

/-- The segments from `pos` on, each behind its padding and its length. -/
def lzoFrames (pos : Nat) : List Bytes → Bytes
  | [] => []
  | seg :: segs => List.replicate (lzoPad pos) 0 ++ (leBytes 4 seg.length ++ (seg ++
      lzoFrames (pos + lzoPad pos + 4 + seg.length) segs))

/-- An extent: its total size, the segments, and up to `lzoPad` zeros behind the last one. -/
def lzoFramed (segs : List Bytes) (trail : Nat) : Bytes :=
  leBytes 4 (4 + (lzoFrames 4 segs).length + trail) ++ (lzoFrames 4 segs ++ List.replicate trail 0)

/-- The decoder skips what the encoder pads. -/
theorem lzoHeader_eq (pos : Nat) : lzoHeader pos = pos + lzoPad pos := by
  have hdiv := Nat.div_add_mod pos 4096
  have hlt := Nat.mod_lt pos (show 0 < 4096 by decide)
  unfold lzoHeader lzoPad btrfsLzoPageSize
  split_ifs <;> omega

/-- The position of encoder and decoder agree segment by segment. -/
theorem segments_of_frames {segs plains : List Bytes}
    (hdec : List.Forall₂ (fun seg b => dec.lzo seg = .ok b) segs plains) :
    ∀ (pos trail : Nat) (before behind : Bytes), (∀ seg ∈ segs, seg ≠ [] ∧ seg.length < 2 ^ 32) →
      before.length = pos → trail ≤ lzoPad (pos + (lzoFrames pos segs).length) →
      Segments dec (before ++ (lzoFrames pos segs ++ behind)) (pos + (lzoFrames pos segs).length + trail) pos
        plains.flatten := by
  induction hdec with
  | nil =>
    intro pos trail before behind _ _ htrail
    refine .done ?_
    rw [lzoHeader_eq]
    rw [lzoFrames, List.length_nil, Nat.add_zero] at htrail ⊢
    omega
  | @cons seg b segs plains hseg _ ih =>
    intro pos trail before behind hall hbefore htrail
    obtain ⟨⟨hne, hsmall⟩, hall⟩ := List.forall_mem_cons.mp hall
    have hpos : 0 < seg.length := List.length_pos_of_ne_nil hne
    generalize hhead : before ++ (List.replicate (lzoPad pos) 0 ++ (leBytes 4 seg.length ++ seg)) = head
    have hheadlen : head.length = pos + lzoPad pos + 4 + seg.length := by
      rw [← hhead]
      simp only [List.length_append, List.length_replicate, length_leBytes]
      omega
    have hsplit : before ++ (lzoFrames pos (seg :: segs) ++ behind) =
        head ++ (lzoFrames (pos + lzoPad pos + 4 + seg.length) segs ++ behind) := by
      rw [← hhead, lzoFrames]
      simp only [List.append_assoc]
    have hlen : (lzoFrames pos (seg :: segs)).length =
        lzoPad pos + 4 + seg.length + (lzoFrames (pos + lzoPad pos + 4 + seg.length) segs).length := by
      rw [lzoFrames]
      simp only [List.length_append, List.length_replicate, length_leBytes]
      omega
    have hstop : pos + (lzoFrames pos (seg :: segs)).length = pos + lzoPad pos + 4 + seg.length +
        (lzoFrames (pos + lzoPad pos + 4 + seg.length) segs).length := by omega
    rw [hstop] at htrail ⊢
    have hrest := ih _ trail head behind hall hheadlen htrail
    rw [hsplit]
    generalize hfile : head ++ (lzoFrames (pos + lzoPad pos + 4 + seg.length) segs ++ behind) = file at hrest
    have hfield : leAt 4 (lzoHeader pos) file = seg.length := by
      refine leAt_of_append (a := before ++ List.replicate (lzoPad pos) 0)
        (c := seg ++ (lzoFrames (pos + lzoPad pos + 4 + seg.length) segs ++ behind)) ?_ ?_ hsmall
      · rw [← hfile, ← hhead]
        simp only [List.append_assoc]
      · rw [List.length_append, List.length_replicate, hbefore, lzoHeader_eq]
    have hbytes : (file.drop (lzoHeader pos + 4)).take seg.length = seg := by
      have hdrop : file.drop (lzoHeader pos + 4) =
          seg ++ (lzoFrames (pos + lzoPad pos + 4 + seg.length) segs ++ behind) := by
        have hfile' : file = (before ++ (List.replicate (lzoPad pos) 0 ++ leBytes 4 seg.length)) ++
            (seg ++ (lzoFrames (pos + lzoPad pos + 4 + seg.length) segs ++ behind)) := by
          rw [← hfile, ← hhead]
          simp only [List.append_assoc]
        rw [hfile', lzoHeader_eq]
        refine List.drop_left' ?_
        simp only [List.length_append, List.length_replicate, length_leBytes]
        omega
      rw [hdrop, List.take_left' rfl]
    rw [List.flatten_cons]
    refine .seg (by rw [hfield]; exact hpos) ?_ (by rw [hfield, hbytes]; exact hseg) ?_
    · rw [hfield, lzoHeader_eq]
      omega
    · rw [hfield, lzoHeader_eq]
      exact hrest

theorem framed_lzoFramed {segs plains : List Bytes} {trail : Nat} (behind : Bytes)
    (hdec : List.Forall₂ (fun seg b => dec.lzo seg = .ok b) segs plains) (hne : ∀ seg ∈ segs, seg ≠ [])
    (htrail : trail ≤ lzoPad (4 + (lzoFrames 4 segs).length))
    (hsize : 4 + (lzoFrames 4 segs).length + trail < 2 ^ 32) :
    Framed dec (lzoFramed segs trail ++ behind) plains.flatten := by
  have hlens : ∀ pos (segs : List Bytes), ∀ seg ∈ segs, seg.length ≤ (lzoFrames pos segs).length := by
    intro pos segs
    induction segs generalizing pos with
    | nil => exact nofun
    | cons a segs ih =>
      intro seg hseg
      simp only [lzoFrames, List.length_append]
      rcases List.mem_cons.mp hseg with rfl | hseg
      · omega
      · have := ih (pos + lzoPad pos + 4 + a.length) seg hseg
        omega
  have htotal : leAt 4 0 (lzoFramed segs trail ++ behind) = 4 + (lzoFrames 4 segs).length + trail := by
    refine leAt_of_append (a := []) (c := lzoFrames 4 segs ++ List.replicate trail 0 ++ behind) ?_ rfl hsize
    rw [lzoFramed, List.nil_append]
    simp only [List.append_assoc]
  refine ⟨by omega, ?_, ?_⟩
  · rw [htotal, lzoFramed]
    simp only [List.length_append, List.length_replicate, length_leBytes]
    omega
  · rw [htotal]
    have hall : ∀ seg ∈ segs, seg ≠ [] ∧ seg.length < 2 ^ 32 := by
      intro seg hseg
      have := hlens 4 segs seg hseg
      exact ⟨hne seg hseg, by omega⟩
    rw [lzoFramed, List.append_assoc, List.append_assoc]
    exact segments_of_frames hdec 4 trail _ _ hall (length_leBytes 4 _) htrail

/-- Framed segments come back, whatever stands behind the total size; and every input gives an error
    or no more than the bound, without an access beyond it. -/
theorem lzo_framing (dec : Decoders) :
    (∀ (segs plains : List Bytes) (trail ramBytes : Nat) (behind : Bytes),
      List.Forall₂ (fun seg b => dec.lzo seg = .ok b) segs plains → (∀ seg ∈ segs, seg ≠ []) →
      trail ≤ lzoPad (4 + (lzoFrames 4 segs).length) →
      4 + (lzoFrames 4 segs).length + trail < 2 ^ 32 →
      plains.flatten.length ≤ min ramBytes maxDecompressRAM →
      Raw.decompressLzo dec (lzoFramed segs trail ++ behind) ramBytes = .ok plains.flatten) ∧
    ∀ (src : Bytes) (ramBytes : Nat), InBounds (Raw.decompressLzo dec src ramBytes) ∧
      ∀ out, Raw.decompressLzo dec src ramBytes = .ok out → out.length ≤ lzoBound src ramBytes := by
  constructor
  · intro segs plains trail ramBytes behind hdec hne htrail hsize hle
    have hframed := framed_lzoFramed behind hdec hne htrail hsize
    rw [raw_decompressLzo, hframed.decompressLzo_ok hle]
    rfl
  · intro src ramBytes
    rw [raw_decompressLzo]
    refine ⟨inBounds_ofExcept _, fun out hrun => ?_⟩
    cases h : decompressLzo dec src ramBytes with
    | error e => rw [h] at hrun; cases hrun
    | ok r =>
      rw [h] at hrun
      cases hrun
      exact decompressLzo_length_le h

/-- A decoder that copies. -/
def copyDecoders : Decoders where
  zlib := fun src => .ok ⟨src, none⟩
  zstd := fun src => .ok ⟨src, none⟩
  lzo := fun src => .ok (src.take btrfsLzoPageSize)
  lzo_le := by
    intro src b h
    cases h
    exact List.length_take_le _ _

theorem lzo_framing_two : Raw.decompressLzo copyDecoders (lzoFramed [[7], [8, 9]] 0 ++ [1]) 3 = .ok [7, 8, 9] :=
  (lzo_framing copyDecoders).1 [[7], [8, 9]] [[7], [8, 9]] 0 3 [1]
    (.cons rfl (.cons rfl .nil)) (by decide) (Nat.zero_le _) (by decide) (by decide)

/-- Without a declared size the output is not bounded by it. -/
theorem lzo_undeclared : ∃ src out, Raw.decompressLzo copyDecoders src 0 = .ok out ∧
    min 0 maxDecompressRAM < out.length := by
  have hframed : Framed copyDecoders (lzoFramed [[7]] 0 ++ []) [[7]].flatten :=
    framed_lzoFramed [] (.cons rfl .nil) (by decide) (Nat.zero_le _) (by decide)
  have htotal : leAt 4 0 (lzoFramed [[7]] 0 ++ []) = 9 := by decide
  refine ⟨lzoFramed [[7]] 0 ++ [], [7], ?_, by decide⟩
  rw [raw_decompressLzo, decompressLzo_eq hframed, lzoSegments_ok hframed.segments]
  · rfl
  · rw [htotal]
    decide

end Btrfs
