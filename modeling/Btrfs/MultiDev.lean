/-
  Btrfs/MultiDev.lean
  ===================
  **The device pool** — `multidev.go`.

  A read of the pool takes `partOff + logical`; the pool finds the chunk of the logical
  address and sends the read to the devices of its stripes.  The striped profiles read up
  to the end of a strip and hand the rest to the pool again.

  Addresses are 64-bit words, so an offset stands for its residue modulo `2 ^ 64`, and a
  device is asked with such a word.  A device read either yields all its bytes or fails;
  the count of bytes a failed read had already delivered is left out.

  The second half says what the striped profiles compute: byte `x` of the chunk is in
  column `x / stripeLen % columns`, in row `x / stripeLen / columns`, and the profile
  says which stripe holds a column of a row (`RaidLevel.stripeOf`).
-/
import Btrfs.Lib.Striping
import Btrfs.Mount

namespace Btrfs

open Lib

/-! ## 1. Devices and chunks -/

/-- A device as the pool sees it. -/
structure BlockBackend where
  size : Except Err Int
  /-- The bytes at an offset, as many as asked for. -/
  readAt : Nat → Nat → Except Err Bytes

/-- A chunk with all its stripes.  There is no local stripe if none is on the device the
    filesystem was opened on. -/
structure PoolChunk extends ChunkMapping where
  localStripeIdx : Option Nat
  stripeLen : Nat
  subStripes : Nat
  stripes : List ChunkStripe
  deriving DecidableEq, Repr

/-- Before the superblock is read there are no chunks to route by. -/
structure DevicePool where
  partOff : Nat
  devices : List (Nat × BlockBackend)
  chunks : Option (List PoolChunk)
  primary : BlockBackend

def word (x : Nat) : Nat := x % 2 ^ 64

def btrfsStripeLen : Nat := 64 * 1024

def blockGroupRAID0 : Nat := 0x08

def blockGroupRAID1 : Nat := 0x10

def blockGroupDup : Nat := 0x20

def blockGroupRAID10 : Nat := 0x40

def blockGroupRAID5 : Nat := 0x80

def blockGroupRAID6 : Nat := 0x100

def blockGroupRAID1C3 : Nat := 0x200

def blockGroupRAID1C4 : Nat := 0x400

def blockGroupProfileMask : Nat :=
  blockGroupRAID0 ||| blockGroupRAID1 ||| blockGroupDup ||| blockGroupRAID10 ||| blockGroupRAID5 |||
    blockGroupRAID6 ||| blockGroupRAID1C3 ||| blockGroupRAID1C4

def PoolChunk.profileBits (c : PoolChunk) : Nat := c.profile &&& blockGroupProfileMask

/-- The mirrors of a RAID10 group; the field may be unset. -/
def PoolChunk.legs (c : PoolChunk) : Nat := if c.subStripes < 2 then 2 else c.subStripes

namespace DevicePool

variable (p : DevicePool)

/-! ## 2. Reading through the pool -/

/-- A read on the device of a stripe, if the pool has it. -/
def tryStripe (inChunk n : Nat) (s : ChunkStripe) : Option (Except Err Bytes) :=
  (p.devices.lookup s.devID).map fun dev => dev.readAt (word (p.partOff + s.offset + inChunk)) n

/-- Each stripe but the local one, in order. -/
def readMirrors (inChunk n : Nat) (c : PoolChunk) :
    List (ChunkStripe × Nat) → Option Err → Except Err Bytes
  | [], some e => .error e
  | [], none => .error (.errorf
      "btrfs: no available device for chunk at log 0x%X (profile 0x%X, %d stripes, %d in pool)"
      [.num c.logStart, .num c.profileBits, .num c.stripes.length, .num p.devices.length])
  | (s, i) :: mirrors, lastErr =>
    if c.localStripeIdx = some i then readMirrors inChunk n c mirrors lastErr
    else
      match p.tryStripe inChunk n s with
      | none => readMirrors inChunk n c mirrors lastErr
      | some (.ok b) => .ok b
      | some (.error e) => readMirrors inChunk n c mirrors (some e)

/-- The local stripe first. -/
def readSingleOrMirror (logical n : Nat) (c : PoolChunk) : Except Err Bytes :=
  let inChunk := logical - c.logStart
  match (c.localStripeIdx.bind fun i => c.stripes[i]?).bind (p.tryStripe inChunk n) with
  | some (.ok b) => .ok b
  | _ => p.readMirrors inChunk n c c.stripes.zipIdx none

def checkStripeLen (c : PoolChunk) : Except Err Unit :=
  if c.stripeLen ≠ btrfsStripeLen then
    .error (.wrap "btrfs: chunk at log 0x%X has stripe_len %d, want %d: %w"
      [.num c.logStart, .num c.stripeLen, .num btrfsStripeLen] (.sentinel .errOutOfBounds))
  else .ok ()

/-- The stripe of a data column; with parity the columns rotate from row to row. -/
def stripeIndex (numStripes nparity rowNr colInRow : Nat) : Nat :=
  if nparity = 0 then colInRow
  else
    let parityStartCol := (numStripes - nparity + rowNr % numStripes) % numStripes
    (parityStartCol + nparity + colInRow) % numStripes

theorem checkStripeLen_eq_ok {c : PoolChunk} :
    checkStripeLen c = .ok () ↔ c.stripeLen = btrfsStripeLen := by
  unfold checkStripeLen
  split_ifs with h <;> simp_all

theorem remain_pos {c : PoolChunk} (hlen : checkStripeLen c = .ok ()) (x : Nat) :
    0 < c.stripeLen - x % c.stripeLen := by
  have hpos : 0 < c.stripeLen := by rw [checkStripeLen_eq_ok.mp hlen]; decide
  have := Nat.mod_lt x hpos
  omega

/-- RAID0, RAID5 and RAID6.  The rest beyond the strip goes through `next`. -/
def readStriped (logical n : Nat) (c : PoolChunk) (nparity : Nat)
    (next : (off m : Nat) → m < n → Except Err Bytes) : Except Err Bytes :=
  match hlen : checkStripeLen c with
  | .error e => .error e
  | .ok () =>
    let numStripes := c.stripes.length
    if numStripes ≤ nparity then
      .error (.errorf
        "btrfs: chunk at log 0x%X has %d stripes but profile needs at least %d for %d-parity"
        [.num c.logStart, .num numStripes, .num (nparity + 1), .num nparity])
    else
      let numData := numStripes - nparity
      let inChunk := logical - c.logStart
      let stripeNr := inChunk / c.stripeLen
      let stripeOff := inChunk % c.stripeLen
      let rowNr := stripeNr / numData
      let colInRow := stripeNr % numData
      let stripeIdx := stripeIndex numStripes nparity rowNr colInRow
      match c.stripes[stripeIdx]? with
      | none => .error (.errorf "btrfs: internal: computed stripeIdx %d out of range %d"
          [.num stripeIdx, .num numStripes])
      | some s =>
        match p.devices.lookup s.devID with
        | none => .error (.errorf
            "btrfs: RAID%d read needs devid %d which is not in the pool (chunk at log 0x%X col %d row %d)"
            [.num (nparity * 5), .num s.devID, .num c.logStart, .num colInRow, .num rowNr])
        | some dev =>
          let perDevOff := word (p.partOff + s.offset + rowNr * c.stripeLen + stripeOff)
          let remainInStripe := c.stripeLen - stripeOff
          if hn : n ≤ remainInStripe then dev.readAt perDevOff n
          else
            have hlt : n - remainInStripe < n := by
              have : 0 < remainInStripe := remain_pos hlen inChunk
              omega
            do
              let b ← dev.readAt perDevOff remainInStripe
              let rest ← next (word (p.partOff + logical + remainInStripe)) (n - remainInStripe) hlt
              return b ++ rest

/-- The legs of a mirror group in turn.  Once a leg has delivered its part of a strip, the others
    are not asked, whatever becomes of the rest. -/
def readLegs (c : PoolChunk) (groupIdx n perDevOff remainInStripe : Nat)
    (next : n - remainInStripe < n → Except Err Bytes) (hpos : 0 < remainInStripe) :
    List ChunkStripe → Option Err → Except Err Bytes
  | [], some e => .error e
  | [], none => .error (.errorf "btrfs: RAID10 chunk at log 0x%X group %d has no available leg"
      [.num c.logStart, .num groupIdx])
  | s :: legs, lastErr =>
    match p.devices.lookup s.devID with
    | none => readLegs c groupIdx n perDevOff remainInStripe next hpos legs lastErr
    | some dev =>
      let absOff := word (perDevOff + s.offset)
      if hn : n ≤ remainInStripe then
        match dev.readAt absOff n with
        | .ok b => .ok b
        | .error e => readLegs c groupIdx n perDevOff remainInStripe next hpos legs (some e)
      else
        match dev.readAt absOff remainInStripe with
        | .ok b => (next (by omega)).map (b ++ ·)
        | .error e => readLegs c groupIdx n perDevOff remainInStripe next hpos legs (some e)

def readRAID10 (logical n : Nat) (c : PoolChunk)
    (next : (off m : Nat) → m < n → Except Err Bytes) : Except Err Bytes :=
  match hlen : checkStripeLen c with
  | .error e => .error e
  | .ok () =>
    let subStripes := c.legs
    let numStripes := c.stripes.length
    if numStripes < subStripes then
      .error (.errorf "btrfs: RAID10 chunk at log 0x%X has %d stripes < subStripes %d"
        [.num c.logStart, .num numStripes, .num subStripes])
    else
      let groups := numStripes / subStripes
      let inChunk := logical - c.logStart
      let stripeNr := inChunk / c.stripeLen
      let stripeOff := inChunk % c.stripeLen
      let groupIdx := stripeNr % groups
      let rowNr := stripeNr / groups
      let stripeBase := groupIdx * subStripes
      let perDevOff := p.partOff + rowNr * c.stripeLen + stripeOff
      let remainInStripe := c.stripeLen - stripeOff
      p.readLegs c groupIdx n perDevOff remainInStripe
        (next (word (p.partOff + logical + remainInStripe)) (n - remainInStripe))
        (remain_pos hlen inChunk) ((c.stripes.drop stripeBase).take subStripes) none

def readFromChunk (logical n : Nat) (c : PoolChunk)
    (next : (off m : Nat) → m < n → Except Err Bytes) : Except Err Bytes :=
  let profile := c.profileBits
  if profile = 0 ∨ profile = blockGroupDup then p.readSingleOrMirror logical n c
  else if profile &&& (blockGroupRAID1 ||| blockGroupRAID1C3 ||| blockGroupRAID1C4) ≠ 0 then
    p.readSingleOrMirror logical n c
  else if profile = blockGroupRAID0 then p.readStriped logical n c 0 next
  else if profile = blockGroupRAID10 then p.readRAID10 logical n c next
  else if profile = blockGroupRAID5 then p.readStriped logical n c 1 next
  else if profile = blockGroupRAID6 then p.readStriped logical n c 2 next
  else .error (.errorf "btrfs: unsupported chunk profile 0x%X at log 0x%X"
    [.num profile, .num logical])

/-- A read that no chunk holds goes to the primary device as it is. -/
def readAt (off n : Nat) : Except Err Bytes :=
  match p.chunks with
  | none => p.primary.readAt off n
  | some chunks =>
    let logical := word (off + 2 ^ 64 - p.partOff)
    match chunks.find? (·.holdsLog logical) with
    | none => p.primary.readAt off n
    | some c => p.readFromChunk logical n c fun off' m _ => readAt off' m
termination_by n

theorem readAt_of_holds {chunks : List PoolChunk} {c : PoolChunk} {logical n : Nat}
    (hchunks : p.chunks = some chunks) (hpart : p.partOff ≤ 2 ^ 64) (hlog : logical < 2 ^ 64)
    (hfind : chunks.find? (·.holdsLog logical) = some c) :
    p.readAt (word (p.partOff + logical)) n =
      p.readFromChunk logical n c fun off m _ => p.readAt off m := by
  have hback : word (word (p.partOff + logical) + 2 ^ 64 - p.partOff) = logical := by
    simp only [word]
    omega
  rw [readAt]
  simp only [hchunks, hback, hfind]

end DevicePool

/-! ## 3. The address maps of the striped profiles -/

inductive RaidLevel
  | raid0
  | raid10
  | raid5
  | raid6
  deriving DecidableEq, Repr

namespace RaidLevel

def bits : RaidLevel → Nat
  | raid0 => blockGroupRAID0
  | raid10 => blockGroupRAID10
  | raid5 => blockGroupRAID5
  | raid6 => blockGroupRAID6

/-- The columns of a row that hold parity. -/
def nparity : RaidLevel → Nat
  | raid0 => 0
  | raid10 => 0
  | raid5 => 1
  | raid6 => 2

/-- The data columns of a chunk. -/
def columns (level : RaidLevel) (c : PoolChunk) : Nat :=
  match level with
  | raid10 => c.stripes.length / c.legs
  | _ => c.stripes.length - level.nparity

/-- The stripe that holds a data column of a row, for RAID10 the first leg of its group. -/
def stripeOf (level : RaidLevel) (c : PoolChunk) (col row : Nat) : Nat :=
  match level with
  | raid0 => col
  | raid10 => col * c.legs
  | raid5 => Striping.turned c.stripes.length col row
  | raid6 => Striping.turned c.stripes.length col row

/-- The stripes with the parity of a row, P before Q. -/
def parityStripes (level : RaidLevel) (c : PoolChunk) (row : Nat) : List Nat :=
  (List.range level.nparity).map fun i =>
    (c.stripes.length - level.nparity + row + i) % c.stripes.length

variable (level : RaidLevel) (c : PoolChunk)

def colOf (x : Nat) : Nat := Striping.col c.stripeLen (level.columns c) x

def rowOf (x : Nat) : Nat := Striping.row c.stripeLen (level.columns c) x

def depthOf (x : Nat) : Nat := Striping.depth c.stripeLen (level.columns c) x

/-- The stripe that holds byte `x` of the chunk. -/
def stripeAt (x : Nat) : Nat := level.stripeOf c (level.colOf c x) (level.rowOf c x)

/-- The device byte for byte `x` of the chunk: a device and an offset on it. -/
def byteOf (x : Nat) : Nat × Nat :=
  let s := c.stripes.getD (level.stripeAt c x) ⟨0, 0⟩
  (s.devID, s.offset + level.depthOf c x)

/-- What a stripe takes up on its device. -/
def stripeSpan (s : ChunkStripe) : Span :=
  ⟨s.offset, Striping.height c.stripeLen (level.columns c) c.size⟩

/-- What the devices hold for a logical range. -/
def slice (content : Nat → Nat → UInt8) (logical n : Nat) : Bytes :=
  (List.range n).map fun j =>
    let b := level.byteOf c (logical + j - c.logStart)
    content b.1 b.2

theorem slice_add (content : Nat → Nat → UInt8) (logical a b : Nat) :
    level.slice c content logical (a + b) =
      level.slice c content logical a ++ level.slice c content (logical + a) b := by
  simp only [slice, List.range_add, List.map_append, List.map_map, Function.comp_def, Nat.add_assoc]

theorem legs_pos : 0 < c.legs := by
  unfold PoolChunk.legs
  split_ifs <;> omega

theorem columns_le : level.columns c ≤ c.stripes.length := by
  cases level with
  | raid10 => exact Nat.div_le_self _ _
  | raid0 | raid5 | raid6 => exact Nat.sub_le _ _

variable {level c}

theorem stripeOf_lt {col row : Nat} (hcol : col < level.columns c) :
    level.stripeOf c col row < c.stripes.length := by
  have hpos : 0 < c.stripes.length := by
    have := columns_le level c
    omega
  cases level with
  | raid0 => exact hcol
  | raid10 =>
    calc col * c.legs < (col + 1) * c.legs := Nat.mul_lt_mul_of_pos_right (Nat.lt_succ_self _) (legs_pos c)
      _ ≤ c.stripes.length / c.legs * c.legs := Nat.mul_le_mul_right _ hcol
      _ ≤ c.stripes.length := Nat.div_mul_le_self _ _
  | raid5 | raid6 => exact Striping.turned_lt hpos

/-- Two columns of a row are on different stripes. -/
theorem stripeOf_inj {col col' row : Nat} (hcol : col < level.columns c)
    (hcol' : col' < level.columns c) (h : level.stripeOf c col row = level.stripeOf c col' row) :
    col = col' := by
  have hle := columns_le level c
  cases level with
  | raid0 => exact h
  | raid10 => exact Nat.eq_of_mul_eq_mul_right (legs_pos c) h
  | raid5 | raid6 => exact Striping.turned_inj (hcol.trans_le hle) (hcol'.trans_le hle) h

/-- No data column is on a stripe with parity: it would be one of the columns behind the data. -/
theorem stripeOf_not_mem_parityStripes {col row : Nat} (hcol : col < level.columns c) :
    level.stripeOf c col row ∉ level.parityStripes c row := by
  intro hmem
  obtain ⟨i, hi, heq⟩ := List.mem_map.mp hmem
  rw [List.mem_range] at hi
  have hpar : (c.stripes.length - level.nparity + row + i) % c.stripes.length =
      Striping.turned c.stripes.length (c.stripes.length - level.nparity + i) row := by
    rw [Striping.turned, Nat.add_right_comm]
  rw [hpar] at heq
  cases level with
  | raid0 | raid10 => exact absurd hi (Nat.not_lt_zero i)
  | raid5 | raid6 =>
    simp only [columns, nparity] at hcol hi heq
    have := Striping.turned_inj (by omega) (by omega) heq
    omega

/-- What the reader computes is the turn by the row. -/
theorem stripeIndex_eq {col row : Nat} (hlevel : level ≠ raid10)
    (hn : level.nparity < c.stripes.length) :
    DevicePool.stripeIndex c.stripes.length level.nparity row col = level.stripeOf c col row := by
  have hturn : ∀ k, k ≤ c.stripes.length →
      ((c.stripes.length - k + row % c.stripes.length) % c.stripes.length + k + col) %
        c.stripes.length = (col + row) % c.stripes.length := by
    intro k hk
    have hsum : c.stripes.length - k + row + k + col = col + row + c.stripes.length := by omega
    rw [Nat.add_assoc, Nat.mod_add_mod, ← Nat.add_assoc, ← Nat.add_mod_right (col + row), ← hsum]
    simp only [Nat.add_mod, Nat.mod_mod]
  cases level with
  | raid10 => exact absurd rfl hlevel
  | raid0 => rfl
  | raid5 => exact hturn 1 hn.le
  | raid6 => exact hturn 2 hn.le

end RaidLevel

/-! ## 4. Striped reads -/

/-- A chunk of a striped profile: some data column, and stripes that do not overlap. -/
structure PoolChunk.Striped (c : PoolChunk) (level : RaidLevel) : Prop where
  bits : c.profileBits = level.bits
  stripeLen : c.stripeLen = btrfsStripeLen
  columns_pos : 0 < level.columns c
  apart : c.stripes.Pairwise fun s t =>
    s.devID = t.devID → Disjoint (level.stripeSpan c s).bytes (level.stripeSpan c t).bytes

/-- The pool routes by a list of chunks that do not overlap, `c` among them, and has all devices of
    `c`, which deliver the bytes of its stripes. -/
structure DevicePool.Serves (p : DevicePool) (c : PoolChunk) (level : RaidLevel)
    (content : Nat → Nat → UInt8) : Prop where
  partOff_le : p.partOff ≤ 2 ^ 64
  below : c.logStart + c.size ≤ 2 ^ 64
  routed : ∃ chunks, p.chunks = some chunks ∧ c ∈ chunks ∧ chunks.Pairwise fun m m' =>
    Disjoint (⟨m.logStart, m.size⟩ : Span).bytes (⟨m'.logStart, m'.size⟩ : Span).bytes
  devices : ∀ s ∈ c.stripes, ∃ dev, p.devices.lookup s.devID = some dev ∧
    ∀ off n, s.offset ≤ off → off + n ≤ (level.stripeSpan c s).stop →
      dev.readAt (word (p.partOff + off)) n =
        .ok ((List.range n).map fun j => content s.devID (off + j))

/-- A range that begins in the chunk and does not leave it. -/
structure PoolChunk.Within (c : PoolChunk) (logical n : Nat) : Prop where
  start_le : c.logStart ≤ logical
  start_lt : logical < c.logStart + c.size
  stop_le : logical + n ≤ c.logStart + c.size

section Reads

variable {p : DevicePool} {c : PoolChunk} {level : RaidLevel} {content : Nat → Nat → UInt8}
  {logical n : Nat}

theorem PoolChunk.Striped.stripeLen_pos (hc : c.Striped level) : 0 < c.stripeLen := by
  rw [hc.stripeLen]
  decide

theorem PoolChunk.Striped.colOf_lt (hc : c.Striped level) (x : Nat) :
    level.colOf c x < level.columns c :=
  Striping.col_lt hc.columns_pos

theorem PoolChunk.Striped.stripeAt_lt (hc : c.Striped level) (x : Nat) :
    level.stripeAt c x < c.stripes.length :=
  RaidLevel.stripeOf_lt (hc.colOf_lt x)

theorem PoolChunk.Striped.byteOf_eq (hc : c.Striped level) (x : Nat) :
    ∃ s, c.stripes[level.stripeAt c x]? = some s ∧
      level.byteOf c x = (s.devID, s.offset + level.depthOf c x) := by
  have hsome := List.getElem?_eq_getElem (hc.stripeAt_lt x)
  refine ⟨_, hsome, ?_⟩
  rw [RaidLevel.byteOf, List.getD_eq_getElem?_getD, hsome, Option.getD_some]

/-- Stripes that share a device byte are one. -/
theorem PoolChunk.Striped.eq_of_mem (hc : c.Striped level) {i j a : Nat} {s t : ChunkStripe}
    (hi : c.stripes[i]? = some s) (hj : c.stripes[j]? = some t) (hdev : s.devID = t.devID)
    (hs : a ∈ (level.stripeSpan c s).bytes) (ht : a ∈ (level.stripeSpan c t).bytes) : i = j := by
  obtain ⟨hlt, rfl⟩ := List.getElem?_eq_some_iff.mp hi
  obtain ⟨hlt', rfl⟩ := List.getElem?_eq_some_iff.mp hj
  have hapart := List.pairwise_iff_getElem.mp hc.apart
  rcases Nat.lt_trichotomy i j with hij | hij | hij
  · exact absurd ht (Set.disjoint_left.mp (hapart i j hlt hlt' hij hdev) hs)
  · exact hij
  · exact absurd hs (Set.disjoint_left.mp (hapart j i hlt' hlt hij hdev.symm) ht)

/-- A device byte determines the byte of the chunk. -/
theorem PoolChunk.Striped.byteOf_injOn (hc : c.Striped level) :
    Set.InjOn (level.byteOf c) (Set.Iio c.size) := by
  intro x hx y hy heq
  obtain ⟨s, hs, hbx⟩ := hc.byteOf_eq x
  obtain ⟨t, ht, hby⟩ := hc.byteOf_eq y
  rw [hbx, hby, Prod.mk.injEq] at heq
  obtain ⟨hdev, hoff⟩ := heq
  have hx' : level.depthOf c x < _ := Striping.depth_lt_height hc.stripeLen_pos hc.columns_pos hx
  have hy' : level.depthOf c y < _ := Striping.depth_lt_height hc.stripeLen_pos hc.columns_pos hy
  have hstripe : level.stripeAt c x = level.stripeAt c y :=
    hc.eq_of_mem hs ht hdev ⟨Nat.le_add_right _ _, Nat.add_lt_add_left hx' _⟩
      (hoff ▸ ⟨Nat.le_add_right _ _, Nat.add_lt_add_left hy' _⟩)
  obtain rfl : s = t := by
    rw [hstripe, ht] at hs
    exact (Option.some.inj hs).symm
  have hdepth : level.depthOf c x = level.depthOf c y := Nat.add_left_cancel hoff
  have hrow : level.rowOf c x = level.rowOf c y := by
    have hdx := (Striping.depth_digits (d := level.columns c) (x := x) hc.stripeLen_pos).1
    have hdy := (Striping.depth_digits (d := level.columns c) (x := y) hc.stripeLen_pos).1
    exact hdx.symm.trans ((congrArg (· / c.stripeLen) hdepth).trans hdy)
  have hcol : level.colOf c x = level.colOf c y := by
    rw [RaidLevel.stripeAt, RaidLevel.stripeAt, ← hrow] at hstripe
    exact RaidLevel.stripeOf_inj (hc.colOf_lt x) (hc.colOf_lt y) hstripe
  exact Striping.eq_of_col_of_depth hc.stripeLen_pos hcol hdepth

theorem PoolChunk.Within.shorten {m : Nat} (hw : c.Within logical n) (h : m ≤ n) :
    c.Within logical m :=
  ⟨hw.start_le, hw.start_lt, (Nat.add_le_add_left h logical).trans hw.stop_le⟩

theorem PoolChunk.Within.holdsLog (hw : c.Within logical n) : c.holdsLog logical = true :=
  decide_eq_true ⟨hw.start_le, hw.start_lt⟩

theorem DevicePool.Serves.readAt_eq (hs : p.Serves c level content) (hw : c.Within logical n) :
    p.readAt (word (p.partOff + logical)) n =
      p.readFromChunk logical n c fun off m _ => p.readAt off m := by
  obtain ⟨chunks, hchunks, hmem, hapart⟩ := hs.routed
  have hlog : logical < 2 ^ 64 := hw.start_lt.trans_le hs.below
  apply p.readAt_of_holds hchunks hs.partOff_le hlog
  refine find?_eq_of_pairwise (hapart.imp fun hd hboth => ?_) hmem hw.holdsLog
  simp only [ChunkMapping.holdsLog, decide_eq_true_eq] at hboth
  exact Set.disjoint_left.mp hd hboth.1 hboth.2

/-- The part of a range that lies in one strip is read from one stripe. -/
theorem DevicePool.Serves.readAt_strip (hc : c.Striped level) (hs : p.Serves c level content)
    (hw : c.Within logical n)
    (hn : n ≤ c.stripeLen - (logical - c.logStart) % c.stripeLen) {s : ChunkStripe}
    (hget : c.stripes[level.stripeAt c (logical - c.logStart)]? = some s) :
    ∃ dev, p.devices.lookup s.devID = some dev ∧
      dev.readAt (word (p.partOff + (s.offset + level.depthOf c (logical - c.logStart)))) n =
        .ok (level.slice c content logical n) := by
  obtain ⟨dev, hdev, hread⟩ := hs.devices s (List.mem_of_getElem? hget)
  refine ⟨dev, hdev, ?_⟩
  have hpos := hc.stripeLen_pos
  have hoff := Nat.mod_lt (logical - c.logStart) hpos
  obtain ⟨hstart, hlt, hstop⟩ := hw
  have hlast : level.depthOf c (logical - c.logStart) + n ≤
      Striping.height c.stripeLen (level.columns c) c.size := by
    cases n with
    | zero => exact (Striping.depth_lt_height hpos hc.columns_pos (by omega)).le
    | succ m =>
      have halong := (Striping.along_strip (d := level.columns c) (j := m)
        (show (logical - c.logStart) % c.stripeLen + m < c.stripeLen by omega)).2.2
      have hm : logical - c.logStart + m < c.size := by omega
      have hlt := Striping.depth_lt_height hpos hc.columns_pos hm
      rw [halong] at hlt
      exact hlt
  rw [hread _ _ (Nat.le_add_right _ _) (by simp only [Span.stop, RaidLevel.stripeSpan]; omega)]
  rw [RaidLevel.slice]
  congr 1
  refine List.map_congr_left fun j hj => ?_
  have hj := List.mem_range.mp hj
  obtain ⟨hcol, hrow, hdepth⟩ := Striping.along_strip (d := level.columns c) (j := j)
    (show (logical - c.logStart) % c.stripeLen + j < c.stripeLen by omega)
  obtain ⟨t, ht, hbyte⟩ := hc.byteOf_eq (logical - c.logStart + j)
  have hsame : level.stripeAt c (logical - c.logStart + j) =
      level.stripeAt c (logical - c.logStart) := by
    simp only [RaidLevel.stripeAt, RaidLevel.colOf, RaidLevel.rowOf, hcol, hrow]
  obtain rfl : t = s := by
    rw [hsame, hget] at ht
    exact (Option.some.inj ht).symm
  rw [show logical + j - c.logStart = logical - c.logStart + j by omega, hbyte]
  simp only [RaidLevel.depthOf, hdepth, Nat.add_assoc]

/-- What one call for a chunk does: it reads up to the end of the strip and hands on the rest. -/
structure DevicePool.StripRead (level : RaidLevel) (c : PoolChunk) (content : Nat → Nat → UInt8)
    (p : DevicePool) (logical n : Nat) (next : (off m : Nat) → m < n → Except Err Bytes)
    (r : Except Err Bytes) (remain : Nat) : Prop where
  within : n ≤ remain → r = .ok (level.slice c content logical n)
  across : ∀ h : n - remain < n, ¬ n ≤ remain →
    r = (next (word (p.partOff + logical + remain)) (n - remain) h).map
      (level.slice c content logical remain ++ ·)

theorem DevicePool.Serves.readStriped_strip (hc : c.Striped level) (hs : p.Serves c level content)
    (hw : c.Within logical n) (hlevel : level ≠ .raid10)
    (next : (off m : Nat) → m < n → Except Err Bytes) :
    p.StripRead level c content logical n next (p.readStriped logical n c level.nparity next)
      (c.stripeLen - (logical - c.logStart) % c.stripeLen) := by
  have hcols : level.columns c = c.stripes.length - level.nparity := by
    cases level with
    | raid10 => exact absurd rfl hlevel
    | raid0 | raid5 | raid6 => rfl
  have hpos := hc.columns_pos
  rw [hcols] at hpos
  obtain ⟨s, hget, -⟩ := hc.byteOf_eq (logical - c.logStart)
  have hidx : c.stripes[stripeIndex c.stripes.length level.nparity
      ((logical - c.logStart) / c.stripeLen / (c.stripes.length - level.nparity))
      ((logical - c.logStart) / c.stripeLen % (c.stripes.length - level.nparity))]? = some s := by
    rw [RaidLevel.stripeIndex_eq hlevel (by omega), ← hcols]
    exact hget
  have hoff : p.partOff + s.offset + (logical - c.logStart) / c.stripeLen /
      (c.stripes.length - level.nparity) * c.stripeLen + (logical - c.logStart) % c.stripeLen =
      p.partOff + (s.offset + level.depthOf c (logical - c.logStart)) := by
    rw [RaidLevel.depthOf, Striping.depth, Striping.row, hcols]
    omega
  unfold readStriped
  split
  case h_1 e he =>
    rw [checkStripeLen_eq_ok.mpr hc.stripeLen] at he
    cases he
  case h_2 hlen =>
    rw [if_neg (by omega)]
    simp only [hidx, hoff]
    constructor
    · intro hn
      obtain ⟨dev, hdev, hread⟩ := hs.readAt_strip hc hw hn hget
      simp only [hdev, hn, dite_true, hread]
    · intro hlt hn
      obtain ⟨dev, hdev, hread⟩ := hs.readAt_strip hc (hw.shorten (not_le.mp hn).le) le_rfl hget
      simp only [hdev, hn, dite_false, hread]
      cases next _ _ hlt <;> rfl

theorem take_drop_of_getElem? {α : Type*} {l : List α} {i k : Nat} {a : α} (hk : 0 < k)
    (hget : l[i]? = some a) : ∃ others, (l.drop i).take k = a :: others := by
  obtain ⟨hlt, rfl⟩ := List.getElem?_eq_some_iff.mp hget
  obtain ⟨k, rfl⟩ := Nat.exists_eq_add_one.mpr hk
  exact ⟨(l.drop (i + 1)).take k, by rw [List.drop_eq_getElem_cons hlt, List.take_succ_cons]⟩

theorem DevicePool.Serves.readRAID10_strip (hc : c.Striped .raid10)
    (hs : p.Serves c .raid10 content) (hw : c.Within logical n)
    (next : (off m : Nat) → m < n → Except Err Bytes) :
    StripRead .raid10 c content p logical n next (p.readRAID10 logical n c next)
      (c.stripeLen - (logical - c.logStart) % c.stripeLen) := by
  have hcols : RaidLevel.columns .raid10 c = c.stripes.length / c.legs := rfl
  have hlegs : c.legs ≤ c.stripes.length := by
    have hpos := hc.columns_pos
    rw [hcols] at hpos
    exact (Nat.div_pos_iff.mp hpos).2
  obtain ⟨s, hget, -⟩ := hc.byteOf_eq (logical - c.logStart)
  have hoff : p.partOff + (logical - c.logStart) / c.stripeLen / (c.stripes.length / c.legs) *
      c.stripeLen + (logical - c.logStart) % c.stripeLen + s.offset =
      p.partOff + (s.offset + RaidLevel.depthOf .raid10 c (logical - c.logStart)) := by
    rw [RaidLevel.depthOf, Striping.depth, Striping.row, hcols]
    omega
  obtain ⟨others, hfirst⟩ := take_drop_of_getElem? (RaidLevel.legs_pos c) hget
  have hgroup : RaidLevel.stripeAt .raid10 c (logical - c.logStart) =
      (logical - c.logStart) / c.stripeLen % (c.stripes.length / c.legs) * c.legs := rfl
  rw [hgroup] at hfirst
  unfold readRAID10
  split
  case h_1 e he =>
    rw [checkStripeLen_eq_ok.mpr hc.stripeLen] at he
    cases he
  case h_2 hlen =>
    rw [if_neg (by omega)]
    -- the first leg delivers, so no other one is asked
    simp only [hfirst, readLegs, hoff]
    constructor
    · intro hn
      obtain ⟨dev, hdev, hread⟩ := hs.readAt_strip hc hw hn hget
      simp only [hdev, hn, dite_true, hread]
    · intro hlt hn
      obtain ⟨dev, hdev, hread⟩ := hs.readAt_strip hc (hw.shorten (not_le.mp hn).le) le_rfl hget
      simp only [hdev, hn, dite_false, hread]

theorem DevicePool.Serves.readFromChunk_strip (hc : c.Striped level) (hs : p.Serves c level content)
    (hw : c.Within logical n) (next : (off m : Nat) → m < n → Except Err Bytes) :
    StripRead level c content p logical n next (p.readFromChunk logical n c next)
      (c.stripeLen - (logical - c.logStart) % c.stripeLen) := by
  rw [readFromChunk, hc.bits]
  cases level with
  | raid0 => exact hs.readStriped_strip hc hw nofun next
  | raid10 => exact hs.readRAID10_strip hc hw next
  | raid5 => exact hs.readStriped_strip hc hw nofun next
  | raid6 => exact hs.readStriped_strip hc hw nofun next

/-- A read inside a striped chunk delivers what the devices hold for its bytes. -/
theorem DevicePool.Serves.readAt_slice (hc : c.Striped level) (hs : p.Serves c level content)
    (hw : c.Within logical n) :
    p.readAt (word (p.partOff + logical)) n = .ok (level.slice c content logical n) := by
  induction n using Nat.strong_induction_on generalizing logical with
  | _ n ih =>
    rw [hs.readAt_eq hw]
    have hstrip := hs.readFromChunk_strip hc hw fun off m _ => p.readAt off m
    by_cases hn : n ≤ c.stripeLen - (logical - c.logStart) % c.stripeLen
    · exact hstrip.within hn
    · have hpos := remain_pos (checkStripeLen_eq_ok.mpr hc.stripeLen) (logical - c.logStart)
      generalize c.stripeLen - (logical - c.logStart) % c.stripeLen = remain at *
      have hlt : n - remain < n := by omega
      have hrest : c.Within (logical + remain) (n - remain) := by
        obtain ⟨h₁, h₂, h₃⟩ := hw
        constructor <;> omega
      rw [hstrip.across hlt hn, Nat.add_assoc, ih (n - remain) hlt hrest]
      have hslice := level.slice_add c content logical remain (n - remain)
      rw [Nat.add_sub_cancel' (not_le.mp hn).le] at hslice
      rw [hslice]
      rfl

/-- The address map of a striped chunk: what a read delivers, that no device byte serves two bytes
    of the chunk, that parity is never taken for data, that the cut of a range does not matter, and
    that a mirrored byte comes from its group. -/
structure DevicePool.RaidMap (p : DevicePool) (c : PoolChunk) (level : RaidLevel)
    (content : Nat → Nat → UInt8) : Prop where
  stripe : ∀ x, level.stripeAt c x < c.stripes.length
  reads : ∀ logical n, c.Within logical n →
    p.readAt (word (p.partOff + logical)) n = .ok (level.slice c content logical n)
  injective : Set.InjOn (level.byteOf c) (Set.Iio c.size)
  notParity : ∀ x, level.stripeAt c x ∉ level.parityStripes c (level.rowOf c x)
  splits : ∀ logical a b, c.Within logical (a + b) → c.Within (logical + a) b → ∃ u v,
    p.readAt (word (p.partOff + logical)) a = .ok u ∧
    p.readAt (word (p.partOff + (logical + a))) b = .ok v ∧
    p.readAt (word (p.partOff + logical)) (a + b) = .ok (u ++ v)
  mirrored : level = .raid10 → ∀ x, level.stripeAt c x / c.legs = level.colOf c x

theorem readAt_raidMap (hc : c.Striped level) (hs : p.Serves c level content) :
    p.RaidMap c level content := by
  constructor
  · exact hc.stripeAt_lt
  · intro logical n hw
    exact hs.readAt_slice hc hw
  · exact hc.byteOf_injOn
  · intro x
    exact RaidLevel.stripeOf_not_mem_parityStripes (hc.colOf_lt x)
  · intro logical a b hw hw'
    refine ⟨level.slice c content logical a, level.slice c content (logical + a) b, ?_, ?_, ?_⟩
    · exact hs.readAt_slice hc (hw.shorten (Nat.le_add_right a b))
    · exact hs.readAt_slice hc hw'
    · rw [hs.readAt_slice hc hw, RaidLevel.slice_add]
  · rintro rfl x
    exact Nat.mul_div_cancel _ (RaidLevel.legs_pos c)

end Reads

/-- Two rows of two data strips on three devices. -/
def raid5Chunk : PoolChunk where
  logStart := 0x100000
  size := 0x40000
  physStart := 0x100000
  profile := blockGroupData ||| blockGroupRAID5
  localStripeIdx := some 0
  stripeLen := 0x10000
  subStripes := 1
  stripes := [⟨1, 0x100000⟩, ⟨2, 0x100000⟩, ⟨3, 0x200000⟩]

/-- Each byte tells its device and its strip. -/
def tellTale (devID off : Nat) : UInt8 := UInt8.ofNat (16 * devID + off / 0x10000 % 16)

def tellTaleDevice (devID : Nat) : BlockBackend where
  size := .ok 0x1000000
  readAt off n := .ok ((List.range n).map fun j => tellTale devID (off + j))

def raid5Pool : DevicePool where
  partOff := 0
  devices := [(1, tellTaleDevice 1), (2, tellTaleDevice 2), (3, tellTaleDevice 3)]
  chunks := some [raid5Chunk]
  primary := tellTaleDevice 1

/-- From the first strip of the second row, on the second device, to the next one. -/
theorem readAt_raidMap_raid5 : raid5Pool.readAt 0x12FFFE 4 = .ok [33, 33, 49, 49] := by
  have hc : raid5Chunk.Striped .raid5 := by
    refine ⟨by decide, rfl, by decide, ?_⟩
    rw [show raid5Chunk.stripes = [⟨1, 0x100000⟩, ⟨2, 0x100000⟩, ⟨3, 0x200000⟩] from rfl]
    simp
  have hs : raid5Pool.Serves raid5Chunk .raid5 tellTale := by
    refine ⟨by decide, by decide, ⟨[raid5Chunk], rfl, List.mem_singleton_self _,
      List.pairwise_singleton _ _⟩, ?_⟩
    intro s hmem
    have hdev : raid5Pool.devices.lookup s.devID = some (tellTaleDevice s.devID) ∧
        (RaidLevel.stripeSpan .raid5 raid5Chunk s).stop < 2 ^ 64 := by
      simp only [raid5Chunk, List.mem_cons, List.not_mem_nil, or_false] at hmem
      rcases hmem with rfl | rfl | rfl <;> exact ⟨rfl, by decide⟩
    refine ⟨_, hdev.1, fun off n _ hstop => ?_⟩
    have hoff : word (raid5Pool.partOff + off) = off := by
      rw [word, raid5Pool, Nat.zero_add]
      omega
    rw [hoff]
    rfl
  have hread := (readAt_raidMap hc hs).reads 0x12FFFE 4 ⟨by decide, by decide, by decide⟩
  exact hread

end Btrfs
