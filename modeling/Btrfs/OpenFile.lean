/-
  Btrfs/OpenFile.lean
  ===================
  **Positional reads** — `openfile.go`.

  Opening a file collects its EXTENT_DATA items once.  A read at an offset clears a window
  and fills it from the items that begin before its end, with the rules of
  `readFileData`, cut to the window on both sides.  The two readers agree: the window is
  that part of the whole-file read (`readAt_window`), and windows side by side give the
  file.
-/
import Btrfs.ExtentBytes
import Btrfs.WriteRead

namespace Btrfs

open Lib

/-! ## 1. The model -/

/-- An open file: what `OpenFile` found of it. -/
structure BtrfsFile where
  num : Nat
  size : Nat
  items : List (Key × Bytes)
  deriving DecidableEq, Repr

/-- The check for overlaps when a file is opened. -/
def checkExtents (ino : Nat) : Nat → List (Key × Bytes) → Except Err Unit
  | _, [] => .ok ()
  | prevEnd, e :: items =>
    if extentType e.2 ≠ some extentDataRegular ∨ e.2.length < extDataRegularSize then
      checkExtents ino prevEnd items
    else if regularStop e < e.1.offset ∨ e.1.offset < prevEnd then
      .error (.wrap "btrfs: inode %d extent at file offset %d overlaps the previous extent (ends at %d): %w"
        [.num ino, .num e.1.offset, .num prevEnd] (.sentinel .errOutOfBounds))
    else checkExtents ino (regularStop e) items

/-- Copy the part of `src`, which begins at file offset `srcOff`, that lies in the window `dst`,
    which begins at `off`. -/
def copyWindow (dst : Bytes) (off srcOff : Nat) (src : Bytes) : Bytes :=
  let hi := off + dst.length
  let srcEnd := srcOff + src.length
  let lo := max srcOff off
  let top := min srcEnd hi
  if top ≤ lo then dst else putAt (lo - off) ((src.drop (lo - srcOff)).take (top - lo)) dst

variable {σ : Type} (B : Backend σ)

def openBtrfsFile (s : σ) (p : Path) : Except Err BtrfsFile :=
  match pathLookup B s p with
  | .error e => .error e
  | .ok i =>
    if !i.isRegular then .error (.errorf "btrfs: %q is not a regular file" [.names p])
    else
      -- a forged size is no size
      let size := if 2 ^ 62 < i.size then 2 ^ 62 else i.size
      if i.size = 0 then .ok ⟨i.num, size, []⟩
      else
        match B.collectPrefixItems s i.num typeExtentData with
        | .error e => .error (.wrap "btrfs: read extents for inode %d: %w" [.num i.num] e)
        | .ok items =>
          match checkExtents i.num 0 items with
          | .error e => .error e
          | .ok () => .ok ⟨i.num, size, items⟩

namespace BtrfsFile

def fillInline (codec : Codec) (f : BtrfsFile) (off : Nat) (dst : Bytes) (e : Key × Bytes) :
    Except Err Bytes :=
  let remaining := f.size - e.1.offset
  let ramBytes := clampRAM (leAt 8 extDataOffRamBytes e.2) remaining
  match decompressExtent codec (e.2.drop extDataHdrSize) (leAt 1 extDataOffCompression e.2)
      ramBytes with
  | .error err => .error (.wrap "btrfs: inode %d inline extent at file offset %d: %w"
      [.num f.num, .num e.1.offset] err)
  | .ok inline => .ok (copyWindow dst off e.1.offset (inline.take remaining))

/-- A plain extent is read in the window only, a compressed one whole. -/
def fillRegular (codec : Codec) (s : σ) (f : BtrfsFile) (off : Nat) (dst : Bytes)
    (e : Key × Bytes) : Except Err Bytes :=
  let fileOffset := e.1.offset
  let hi := off + dst.length
  let numBytes := min (leAt 8 extDataOffNumBytes e.2) (f.size - fileOffset)
  let stop := (fileOffset + numBytes) % 2 ^ 64
  let diskBytenr := leAt 8 extDataOffDiskBytenr e.2
  let extOffset := leAt 8 extDataOffOffset e.2
  -- wraps, or ends before the window
  if stop < fileOffset ∨ stop ≤ off then .ok dst
  else if diskBytenr = 0 then .ok dst
  else if leAt 1 extDataOffCompression e.2 = compressionNone then
    let lo := max fileOffset off
    let top := min stop hi
    match (B.sb s).physAddr (diskBytenr + extOffset + (lo - fileOffset)) with
    | .error err => .error (.wrap "btrfs: inode %d extent at file offset %d: %w"
        [.num f.num, .num fileOffset] err)
    | .ok phys =>
      match Btrfs.readAt (B.vol s).dev phys (top - lo) with
      | .error err => .error (.wrap "btrfs: read extent data: %w" [] err)
      | .ok b => .ok (putAt (lo - off) b dst)
  else
    match readRegularBytes B codec s e.2 numBytes with
    | .error err => .error (.wrap "btrfs: inode %d extent at file offset %d: %w"
        [.num f.num, .num fileOffset] err)
    | .ok b => .ok (copyWindow dst off fileOffset b)

/-- One turn of the loop that fills a window. -/
def fillExtent (codec : Codec) (s : σ) (f : BtrfsFile) (off : Nat) (dst : Bytes)
    (e : Key × Bytes) : Except Err Bytes :=
  if f.size ≤ e.1.offset then .ok dst
  else
    match extentType e.2 with
    | none => .ok dst
    | some typ =>
      if typ = extentDataInline then f.fillInline codec off dst e
      else if typ = extentDataRegular then
        if e.2.length < extDataRegularSize then .ok dst else f.fillRegular B codec s off dst e
      else .ok dst

/-- The loop stops at the first item behind the window. -/
def fill (codec : Codec) (s : σ) (f : BtrfsFile) (off : Nat) :
    Bytes → List (Key × Bytes) → Except Err Bytes
  | dst, [] => .ok dst
  | dst, e :: items =>
    if off + dst.length ≤ e.1.offset then .ok dst
    else
      match f.fillExtent B codec s off dst e with
      | .error err => .error err
      | .ok dst' => f.fill codec s off dst' items

/-- The bytes that were there, and whether the end of the file was reported. -/
def readAt (codec : Codec) (s : σ) (f : BtrfsFile) (off : Int) (n : Nat) :
    Except Err (Bytes × Bool) :=
  if off < 0 then .error (.errorf "btrfs: negative offset %d" [.num off])
  else if f.size ≤ off.toNat then .ok ([], true)
  else
    let want := if f.size < off.toNat + n then f.size - off.toNat else n
    match f.fill B codec s off.toNat (zeros want) f.items with
    | .error err => .error err
    | .ok dst => .ok (dst, decide (want < n))

/-- Windows of the given lengths, one behind the other. -/
def readWindows (codec : Codec) (s : σ) (f : BtrfsFile) : Nat → List Nat → Except Err Bytes
  | _, [] => .ok []
  | off, n :: ns =>
    match f.readAt B codec s off n with
    | .error err => .error err
    | .ok (b, _) => (f.readWindows codec s (off + n) ns).map (b ++ ·)

end BtrfsFile

/-! ## 2. One extent -/

/-- The window of a buffer into which bytes were put. -/
theorem take_drop_putAt {b x : Bytes} {o off n : Nat} (hx : o + x.length ≤ b.length)
    (hn : off + n ≤ b.length) :
    ((putAt o x b).drop off).take n = copyWindow ((b.drop off).take n) off o x := by
  have hlen : ((b.drop off).take n).length = n := by
    rw [List.length_take, List.length_drop]
    omega
  have hput : ∀ {o' : Nat} {x' : Bytes}, o' + x'.length ≤ n → ∀ k,
      (putAt o' x' ((b.drop off).take n))[k]? =
        if o' ≤ k ∧ k < o' + x'.length then x'[k - o']? else if k < n then b[off + k]? else none := by
    intro o' x' h k
    rw [getElem?_putAt (by rw [hlen]; exact h), List.getElem?_take, List.getElem?_drop]
  apply List.ext_getElem?
  intro k
  unfold copyWindow
  dsimp only
  rw [hlen, List.getElem?_take, List.getElem?_drop, getElem?_putAt hx]
  by_cases hempty : min (o + x.length) (off + n) ≤ max o off
  · rw [if_pos hempty, List.getElem?_take, List.getElem?_drop]
    split_ifs <;> first | rfl | omega
  · rw [if_neg hempty]
    have hlenx : ((x.drop (max o off - o)).take (min (o + x.length) (off + n) - max o off)).length =
        min (o + x.length) (off + n) - max o off := by
      rw [List.length_take, List.length_drop]
      omega
    rw [hput (by rw [hlenx]; omega), hlenx, List.getElem?_take, List.getElem?_drop]
    split_ifs <;> first | rfl | omega | (congr 1; omega)

theorem copyWindow_of_le {dst src : Bytes} {off srcOff : Nat} (h : srcOff + src.length ≤ max srcOff off) :
    copyWindow dst off srcOff src = dst := by
  unfold copyWindow
  dsimp only
  rw [if_pos (by omega)]

/-- The bytes of a plain extent lie in one chunk. -/
def InOneChunk (sb : Superblock) (e : Key × Bytes) : Prop :=
  extentType e.2 = some extentDataRegular → leAt 8 extDataOffDiskBytenr e.2 ≠ 0 →
    leAt 1 extDataOffCompression e.2 = compressionNone →
    ∃ m, ∀ j < leAt 8 extDataOffNumBytes e.2,
      sb.lookupChunk (leAt 8 extDataOffDiskBytenr e.2 + leAt 8 extDataOffOffset e.2 + j) = .ok m

namespace BtrfsFile

variable {B} {codec : Codec} {s : σ} {f : BtrfsFile} {off n : Nat} {dst : Bytes} {e : Key × Bytes}

theorem fillRegular_hole (hhole : leAt 8 extDataOffDiskBytenr e.2 = 0) :
    f.fillRegular B codec s off dst e = .ok dst := by
  simp only [fillRegular, hhole, if_true, ite_self]

theorem fillRegular_eq (hsize : f.size ≤ 2 ^ 62) (hin : e.1.offset < f.size)
    (hchunk : InOneChunk (B.sb s) e) (htype : extentType e.2 = some extentDataRegular)
    (hdisk : leAt 8 extDataOffDiskBytenr e.2 ≠ 0) {b : Bytes}
    (hb : readRegularBytes B codec s e.2
      (min (leAt 8 extDataOffNumBytes e.2) (f.size - e.1.offset)) = .ok b) :
    f.fillRegular B codec s off dst e = .ok (copyWindow dst off e.1.offset b) := by
  have hlen := readRegularBytes_length hb
  have hstop : (e.1.offset + b.length) % 2 ^ 64 = e.1.offset + b.length := by omega
  unfold fillRegular
  dsimp only
  rw [← hlen, hstop]
  by_cases hbefore : e.1.offset + b.length ≤ off
  · rw [if_pos (Or.inr hbefore), copyWindow_of_le (by omega)]
  rw [if_neg (by omega), if_neg hdisk]
  by_cases hplain : leAt 1 extDataOffCompression e.2 = compressionNone
  · rw [if_pos hplain]
    obtain ⟨m, hchunk⟩ := hchunk htype hdisk hplain
    obtain ⟨phys, hphys, hread⟩ := (readRegularBytes_plain hplain).mp hb
    rw [← hlen] at hread
    generalize hskip : max e.1.offset off - e.1.offset = skip
    have hin' : skip = 0 ∨ skip < b.length := by omega
    have hphys' : (B.sb s).physAddr (leAt 8 extDataOffDiskBytenr e.2 +
        leAt 8 extDataOffOffset e.2 + skip) = .ok (phys + skip) := by
      rcases hin' with rfl | hlt
      · exact hphys
      · exact physAddr_add hchunk (by omega) hphys
    rw [hphys']
    dsimp only
    have hpart : Btrfs.readAt (B.vol s).dev (phys + skip)
        (min (e.1.offset + b.length) (off + dst.length) - max e.1.offset off) =
        .ok ((b.drop skip).take
          (min (e.1.offset + b.length) (off + dst.length) - max e.1.offset off)) :=
      readAt_eq_ok.mpr (WriteLog.readCells_slice (readAt_eq_ok.mp hread) (by omega))
    rw [hpart]
    dsimp only [copyWindow]
    rw [hskip]
    split_ifs with hempty
    · rw [Nat.sub_eq_zero_of_le hempty, List.take_zero, putAt_nil]
    · rfl
  · rw [if_neg hplain, hlen, hb]

theorem fillExtent_eq (hsize : f.size ≤ 2 ^ 62) (hchunk : InOneChunk (B.sb s) e) {b : Bytes}
    (hb : itemBytes B codec s f.size e = some b) :
    f.fillExtent B codec s off dst e = .ok (copyWindow dst off e.1.offset b) := by
  have hnil : ∀ c : Bytes, some ([] : Bytes) = some c → dst = copyWindow dst off e.1.offset c := by
    rintro c ⟨⟩
    rw [copyWindow_of_le (by simp)]
  unfold itemBytes at hb
  unfold fillExtent
  by_cases hin : f.size ≤ e.1.offset
  · rw [if_pos hin] at hb ⊢
    rw [← hnil b hb]
  rw [if_neg hin] at hb ⊢
  rcases htype : extentType e.2 with _ | typ
  · simp only [htype] at hb ⊢
    rw [← hnil b hb]
  simp only [htype] at hb ⊢
  split_ifs at hb ⊢ with hinline hregular hshort hhole
  · obtain ⟨c, hc, rfl⟩ := Option.map_eq_some_iff.mp hb
    simp only [fillInline, toOption_eq_some.mp hc]
  · rw [← hnil b hb]
  · rw [fillRegular_hole hhole, ← hnil b hb]
  · exact fillRegular_eq hsize (not_le.mp hin) hchunk (hregular ▸ htype) hhole
      (toOption_eq_some.mp hb)
  · rw [← hnil b hb]

/-! ## 3. The loop -/

variable {i : InodeItem} {items : List (Key × Bytes)} {acc acc' : Assembled}

/-- Items behind a window do not change it. -/
theorem window_of_behind (hbehind : ∀ e ∈ items, off + n ≤ e.1.offset)
    (hlen : acc.out.length = i.size)
    (hfold : items.foldlM (readExtent B codec s i) acc = .ok acc') :
    (acc'.out.drop off).take n = (acc.out.drop off).take n := by
  induction items generalizing acc with
  | nil =>
    obtain rfl := Except.ok.inj hfold
    rfl
  | cons e items ih =>
    obtain ⟨acc₁, hturn, hrest⟩ := foldlM_cons_eq_ok.mp hfold
    rw [ih (fun x hx => hbehind x (List.mem_cons_of_mem _ hx)) (readExtent_length hturn hlen) hrest]
    obtain ⟨b, -, hout, hfits⟩ := readExtent_out hturn hlen
    rw [hout]
    by_cases hnil : b = []
    · rw [hnil, putAt_nil]
    · exact take_drop_putAt_of_disjoint (hfits hnil) (Or.inl (hbehind e List.mem_cons_self))

/-- Filling a window follows the whole-file read. -/
theorem fill_eq (hsize : f.size = i.size) (hmax : i.size ≤ 2 ^ 62) (hwin : off + n ≤ i.size)
    (hsorted : items.Pairwise fun a b => a.1.offset ≤ b.1.offset)
    (hchunks : ∀ e ∈ items, InOneChunk (B.sb s) e) (hlen : acc.out.length = i.size)
    (hfold : items.foldlM (readExtent B codec s i) acc = .ok acc') :
    f.fill B codec s off ((acc.out.drop off).take n) items = .ok ((acc'.out.drop off).take n) := by
  have hwidth : ((acc.out.drop off).take n).length = n := by
    rw [List.length_take, List.length_drop]
    omega
  induction items generalizing acc with
  | nil =>
    obtain rfl := Except.ok.inj hfold
    rfl
  | cons e items ih =>
    obtain ⟨hfirst, hsorted⟩ := List.pairwise_cons.mp hsorted
    rw [fill, hwidth]
    by_cases hstop : off + n ≤ e.1.offset
    · rw [if_pos hstop, window_of_behind (fun x hx => ?_) hlen hfold]
      rcases List.mem_cons.mp hx with rfl | hmem
      · exact hstop
      · exact hstop.trans (hfirst x hmem)
    · obtain ⟨acc₁, hturn, hrest⟩ := foldlM_cons_eq_ok.mp hfold
      rw [if_neg hstop]
      obtain ⟨b, hb, hout, hfits⟩ := readExtent_out hturn hlen
      rw [← hsize] at hb
      rw [fillExtent_eq (hsize.trans_le hmax) (hchunks e List.mem_cons_self) hb]
      have hcopy : copyWindow ((acc.out.drop off).take n) off e.1.offset b =
          (acc₁.out.drop off).take n := by
        rw [hout]
        by_cases hnil : b = []
        · rw [hnil, putAt_nil, copyWindow_of_le (by simp)]
        · exact (take_drop_putAt (hfits hnil) (by omega)).symm
      rw [hcopy]
      have hlen₁ := readExtent_length hturn hlen
      refine ih hsorted (fun x hx => hchunks x (List.mem_cons_of_mem _ hx)) hlen₁ hrest ?_
      rw [List.length_take, List.length_drop]
      omega

/-! ## 4. Positional reads and the whole file -/

variable {p : Path} {content : Bytes}

/-- What opening a file finds. -/
theorem openBtrfsFile_inv (h : openBtrfsFile B s p = .ok f) :
    ∃ i, pathLookup B s p = .ok i ∧ i.isRegular = true ∧
      f.size = (if 2 ^ 62 < i.size then 2 ^ 62 else i.size) ∧
      (i.size = 0 ∨ B.collectPrefixItems s i.num typeExtentData = .ok f.items) := by
  unfold openBtrfsFile at h
  cases hp : pathLookup B s p with
  | error e =>
    rw [hp] at h
    cases h
  | ok i =>
    rw [hp] at h
    dsimp only at h
    by_cases hreg : i.isRegular = true
    · refine ⟨i, rfl, hreg, ?_⟩
      simp only [hreg, Bool.not_true, Bool.false_eq_true, if_false] at h
      by_cases hzero : i.size = 0
      · rw [if_pos hzero] at h
        obtain rfl := Except.ok.inj h
        exact ⟨rfl, Or.inl hzero⟩
      · rw [if_neg hzero] at h
        cases hitems : B.collectPrefixItems s i.num typeExtentData with
        | error e =>
          rw [hitems] at h
          cases h
        | ok items =>
          simp only [hitems] at h
          cases hcheck : checkExtents i.num 0 items with
          | error e =>
            rw [hcheck] at h
            cases h
          | ok u =>
            rw [hcheck] at h
            obtain rfl := Except.ok.inj h
            exact ⟨rfl, Or.inr rfl⟩
    · simp [hreg] at h

/-- Positional reads of an open file are windows of its content.  The end of the file is reported
    when the window reaches beyond it, and whenever the window begins at it or behind it. -/
structure Positional (B : Backend σ) (codec : Codec) (s : σ) (f : BtrfsFile) (content : Bytes) :
    Prop where
  window : ∀ off n : Nat, f.readAt B codec s off n =
    .ok ((content.drop off).take n, decide (content.length ≤ off ∨ content.length < off + n))
  windows : ∀ ns : List Nat, f.readWindows B codec s 0 ns = .ok (content.take ns.sum)

theorem readWindows_eq (hwindow : ∀ off n : Nat, f.readAt B codec s off n =
      .ok ((content.drop off).take n, decide (content.length ≤ off ∨ content.length < off + n)))
    (off : Nat) (ns : List Nat) :
    f.readWindows B codec s off ns = .ok ((content.drop off).take ns.sum) := by
  induction ns generalizing off with
  | nil => rfl
  | cons n ns ih =>
    rw [readWindows, hwindow, ih, List.sum_cons, List.take_add, List.drop_drop]
    rfl

theorem positional_of_readFile (hopen : openBtrfsFile B s p = .ok f)
    (hread : readFile B codec s p = .ok content)
    (hsorted : f.items.Pairwise fun a b => a.1.offset ≤ b.1.offset)
    (hchunks : ∀ e ∈ f.items, InOneChunk (B.sb s) e) : Positional B codec s f content := by
  obtain ⟨i, hp, hreg, hsize, hitems⟩ := openBtrfsFile_inv hopen
  rw [readFile, hp] at hread
  simp only [hreg, Bool.not_true, Bool.false_eq_true, if_false] at hread
  have hwindow : ∀ off n : Nat, f.readAt B codec s off n =
      .ok ((content.drop off).take n, decide (content.length ≤ off ∨ content.length < off + n)) := by
    intro off n
    by_cases hzero : i.size = 0
    · rw [readFileData, if_pos hzero] at hread
      obtain rfl := Except.ok.inj hread
      have hf : f.size = 0 := by
        rw [hsize, hzero]
        rfl
      simp [readAt, hf]
    · have hitems := hitems.resolve_left hzero
      obtain ⟨hle, acc, hfold, rfl⟩ := readFileData_inv hread hzero hitems
      have hmax : i.size ≤ 2 ^ 62 := hle.trans (by decide)
      rw [if_neg (not_lt.mpr hmax)] at hsize
      have hlen := readExtents_length (by exact List.length_replicate) hfold
      rw [readAt, if_neg (by omega), Int.toNat_natCast, hsize, hlen]
      by_cases hend : i.size ≤ off
      · rw [if_pos hend, List.drop_eq_nil_of_le (by omega), List.take_nil,
          decide_eq_true (Or.inl hend)]
      rw [if_neg hend]
      generalize hwant : (if i.size < off + n then i.size - off else n) = want
      have hmin : want = min n (i.size - off) := by
        rw [← hwant]
        split_ifs <;> omega
      have hzeros : zeros want = ((zeros i.size).drop off).take want := by
        rw [zeros, zeros, List.drop_replicate, List.take_replicate]
        congr 1
        omega
      dsimp only
      rw [hzeros, fill_eq hsize hmax (by omega) hsorted hchunks List.length_replicate hfold]
      have htake : (acc.out.drop off).take want = (acc.out.drop off).take n := by
        rw [hmin, ← hlen, ← List.length_drop]
        exact List.take_eq_take_min.symm
      simp only [htake, Except.ok.injEq, Prod.mk.injEq, true_and, decide_eq_decide]
      omega
  exact ⟨hwindow, fun ns => readWindows_eq hwindow 0 ns⟩

end BtrfsFile

theorem InOneChunk.of_inline {sb : Superblock} {e : Key × Bytes}
    (h : extentType e.2 = some extentDataInline) : InOneChunk sb e := by
  intro hreg
  rw [h] at hreg
  cases hreg

/-- A file of one byte, in windows of two bytes and of none. -/
theorem positional_oneFile : ∃ f, openBtrfsFile mapBackend oneFile pathA = .ok f ∧
    f.readWindows mapBackend (fun _ src _ => .ok src) oneFile 0 [2, 0] = .ok [1] := by
  have hfacts : ∃ f ∈ (openBtrfsFile mapBackend oneFile pathA).toOption,
      readFile mapBackend (fun _ src _ => .ok src) oneFile pathA = .ok [1] ∧
      f.items.Pairwise (fun a b => a.1.offset ≤ b.1.offset) ∧
      ∀ e ∈ f.items, extentType e.2 = some extentDataInline := by decide +kernel
  obtain ⟨f, hopen, hread, hsorted, hinline⟩ := hfacts
  have hopen := toOption_eq_some.mp hopen
  have hpos := BtrfsFile.positional_of_readFile hopen hread hsorted
    fun e he => InOneChunk.of_inline (hinline e he)
  exact ⟨f, hopen, hpos.windows [2, 0]⟩

/-- At the end of a file no byte is missing from an empty window, but the end is reported. -/
theorem readAt_end_eof : ∃ f, openBtrfsFile mapBackend oneFile pathA = .ok f ∧
    readFile mapBackend (fun _ src _ => .ok src) oneFile pathA = .ok [1] ∧
    f.items.Pairwise (fun a b => a.1.offset ≤ b.1.offset) ∧
    (∀ e ∈ f.items, InOneChunk (mapBackend.sb oneFile) e) ∧
    f.readAt mapBackend (fun _ src _ => .ok src) oneFile 1 0 = .ok ([], true) ∧
    ¬ [(1 : UInt8)].length - 1 < 0 := by
  have hfacts : ∃ f ∈ (openBtrfsFile mapBackend oneFile pathA).toOption,
      readFile mapBackend (fun _ src _ => .ok src) oneFile pathA = .ok [1] ∧
      f.items.Pairwise (fun a b => a.1.offset ≤ b.1.offset) ∧
      (∀ e ∈ f.items, extentType e.2 = some extentDataInline) ∧
      f.readAt mapBackend (fun _ src _ => .ok src) oneFile 1 0 = .ok ([], true) := by
    decide +kernel
  obtain ⟨f, hopen, hread, hsorted, hinline, heof⟩ := hfacts
  exact ⟨f, toOption_eq_some.mp hopen, hread, hsorted,
    fun e he => InOneChunk.of_inline (hinline e he), heof, by decide⟩

end Btrfs
