/-
  Btrfs/Readers.lean
  ==================
  **The reader behind the read calls** — `nodecache.go`, `harden.go`, and the size check of
  `read.go`.

  A read call passes its reader down as an `io.ReaderAt`.  `deviceSize` asks the value it
  is given for a `Size` method: a device and the pool have one, the node cache, which
  embeds the interface `io.ReaderAt`, has only `ReadAt`.  All read calls pass the cache.
-/
import Btrfs.MultiDev
import Btrfs.Truncate

namespace Btrfs

open Lib

/-! ## 1. Readers -/

/-- The node cache over a pool, made for one generation of the superblock.  The cached nodes are
    left out: `readNode` answers the same with them. -/
structure CachedReader where
  readerAt : DevicePool
  builtGen : Nat

/-- The values passed as an `io.ReaderAt`. -/
inductive Reader
  | backend (dev : BlockBackend)
  | pool (p : DevicePool)
  | cached (r : CachedReader)

def DevicePool.size (p : DevicePool) : Except Err Int := p.primary.size

/-- The answer of the `Size` method, if the value has one. -/
def Reader.size? : Reader → Option (Except Err Int)
  | .backend dev => some dev.size
  | .pool p => some p.size
  | .cached _ => none

def deviceSize (r : Reader) : Int :=
  match r.size? with
  | some (.ok n) => if 0 < n then n else hardSizeCeiling
  | _ => hardSizeCeiling

/-- An open filesystem: the pool, the cache if there is one, and the state of its trees. -/
structure BtrfsFS (σ : Type) where
  f : DevicePool
  cache : Option CachedReader
  state : σ

variable {σ : Type} (B : Backend σ)

/-- The cache, made anew when the generation has moved on. -/
def BtrfsFS.reader (fs : BtrfsFS σ) : CachedReader × BtrfsFS σ :=
  let fresh : CachedReader := ⟨fs.f, (B.sb fs.state).generation⟩
  match fs.cache with
  | none => (fresh, { fs with cache := some fresh })
  | some r =>
    if r.builtGen ≠ (B.sb fs.state).generation then (fresh, { fs with cache := some fresh })
    else (r, fs)

def errDeclaredSize (i : InodeItem) : Err :=
  .wrap "btrfs: inode %d declared size %d: %w" [.num i.num, .num i.size] (.sentinel .errLimit)

/-- `readFileData` as it is handed a reader. -/
def readFileDataFrom (r : CachedReader) (codec : Codec) (s : σ) (i : InodeItem) : Except Err Bytes :=
  if i.size = 0 then .ok []
  else
    match B.collectPrefixItems s i.num typeExtentData with
    | .error e => .error (.wrap "btrfs: read extents for inode %d: %w" [.num i.num] e)
    | .ok items =>
      if deviceSize (.cached r) < i.size then .error (errDeclaredSize i)
      else (items.foldlM (readExtent B codec s i) ⟨zeros i.size, 0⟩).map Assembled.out

/-- `ReadFile` of the filesystem. -/
def BtrfsFS.readFile (fs : BtrfsFS σ) (codec : Codec) (p : Path) : Except Err Bytes × BtrfsFS σ :=
  let (r, fs') := fs.reader B
  match pathLookup B fs.state p with
  | .error e => (.error e, fs')
  | .ok i =>
    if !i.isRegular then (.error (.errorf "btrfs: %q is not a regular file" [.names p]), fs')
    else (readFileDataFrom B r codec fs.state i, fs')

/-! ## 2. The bound -/

variable {B} {fs : BtrfsFS σ} {codec : Codec} {s : σ} {p : Path} {i : InodeItem}

/-- Without a `Size` method the bound is the ceiling, so the reader is the one of the file layer. -/
theorem readFileDataFrom_eq (r : CachedReader) :
    readFileDataFrom B r codec s i = readFileData B codec s i := by
  unfold readFileDataFrom readFileData
  cases B.collectPrefixItems s i.num typeExtentData with
  | error e => rfl
  | ok items => simp only [deviceSize, Reader.size?, Int.ofNat_lt, errDeclaredSize]

theorem BtrfsFS.readFile_eq : (fs.readFile B codec p).1 = Btrfs.readFile B codec fs.state p := by
  unfold BtrfsFS.readFile Btrfs.readFile
  cases pathLookup B fs.state p with
  | error e => rfl
  | ok i =>
    dsimp only
    split_ifs
    · rfl
    · exact readFileDataFrom_eq _

/-- No extent is refused with the error about the declared size. -/
theorem readExtent_ne_errDeclaredSize (acc : Assembled) (e : Key × Bytes) :
    readExtent B codec s i acc e ≠ .error (errDeclaredSize i) := by
  have hinline : readInline codec i e.1.offset e.2 acc ≠ .error (errDeclaredSize i) := by
    unfold readInline
    dsimp only
    split <;> simp [errDeclaredSize]
  have hregular : readRegular B codec s i e.1.offset e.2 acc ≠ .error (errDeclaredSize i) := by
    unfold readRegular
    dsimp only
    repeat' split
    all_goals simp [errDeclaredSize]
  unfold readExtent
  repeat' split
  all_goals first | assumption | simp [errDeclaredSize]

theorem foldlM_ne_error {α β ε : Type} {f : β → α → Except ε β} {e : ε}
    (hf : ∀ b a, f b a ≠ .error e) (l : List α) (b : β) : l.foldlM f b ≠ .error e := by
  induction l generalizing b with
  | nil => exact nofun
  | cons a l ih =>
    rw [List.foldlM_cons]
    cases hstep : f b a with
    | error e' =>
      rintro ⟨⟩
      exact hf b a hstep
    | ok b' => exact ih b'

/-- The file has some EXTENT_DATA item. -/
def HasExtents (B : Backend σ) (s : σ) (ino : Nat) : Prop :=
  ∃ items, B.collectPrefixItems s ino typeExtentData = .ok items ∧ items ≠ []

/-- The answer of `ReadFile` that blames the size of the file. -/
def RefusedForSize (i : InodeItem) (r : Except Err Bytes) : Prop := r = .error (errDeclaredSize i)

theorem readFile_refusedForSize_iff (hp : pathLookup B s p = .ok i) (hreg : i.isRegular = true)
    (hext : HasExtents B s i.num) :
    RefusedForSize i (readFile B codec s p) ↔ hardSizeCeiling < i.size := by
  obtain ⟨items, hitems, -⟩ := hext
  unfold RefusedForSize
  rw [readFile, hp]
  simp only [hreg, Bool.not_true, Bool.false_eq_true, if_false]
  unfold readFileData
  rw [hitems]
  split_ifs with hzero hlarge
  · simp [hzero]
  · exact ⟨fun _ => hlarge, fun _ => rfl⟩
  · refine ⟨fun h => ?_, fun h => absurd h hlarge⟩
    dsimp only at h
    cases hfold : items.foldlM (readExtent B codec s i) ⟨zeros i.size, 0⟩ with
    | ok acc =>
      rw [hfold] at h
      cases h
    | error e =>
      rw [hfold] at h
      obtain rfl : e = errDeclaredSize i := Except.error.inj h
      exact absurd hfold (foldlM_ne_error readExtent_ne_errDeclaredSize items _)

/-- **The bound on file sizes is not the size of the device.**  A file with extents is refused for
    its size exactly when it is larger than the device if the device and the ceiling agree on it. -/
theorem readFile_sizeBound_iff (codec : Codec) {D : Int} (_hsize : fs.f.size = .ok D)
    (hp : pathLookup B fs.state p = .ok i) (hreg : i.isRegular = true)
    (hext : HasExtents B fs.state i.num) :
    ((i.size ≤ D → ¬ RefusedForSize i (fs.readFile B codec p).1) ∧
      (D < i.size → RefusedForSize i (fs.readFile B codec p).1)) ↔
      (i.size ≤ D ↔ i.size ≤ hardSizeCeiling) := by
  rw [fs.readFile_eq, readFile_refusedForSize_iff hp hreg hext]
  omega

/-- An open filesystem whose device reports a size. -/
def openOn (size : Nat) (s : MapFs) : BtrfsFS MapFs where
  f := ⟨0, [], none, ⟨.ok size, fun _ _ => .error (.errorf "read" [])⟩⟩
  cache := none
  state := s

/-- The file of the first example, grown to `n` bytes. -/
def grownA (n : Nat) : MapFs := (truncateA n).after (writeA.after fmtMap)

theorem hasExtents_of_isOk {s : MapFs} {ino : Nat}
    (h : ((mapBackend.collectPrefixItems s ino typeExtentData).toOption.any (!·.isEmpty)) = true) :
    HasExtents mapBackend s ino := by
  cases hitems : mapBackend.collectPrefixItems s ino typeExtentData with
  | error e =>
    rw [hitems] at h
    cases h
  | ok items =>
    rw [hitems] at h
    refine ⟨items, hitems, ?_⟩
    rintro rfl
    cases h

theorem readFile_sizeBound_grown : ¬ RefusedForSize ⟨257, 0x81A4, 3, 1⟩
    ((openOn 0x1000000 (grownA 3)).readFile mapBackend (fun _ src _ => .ok src) pathA).1 := by
  have hfacts : pathLookup mapBackend (grownA 3) pathA = .ok ⟨257, 0x81A4, 3, 1⟩ ∧
      (mapBackend.collectPrefixItems (grownA 3) 257 typeExtentData).toOption.any (!·.isEmpty) =
        true := by decide +kernel
  generalize grownA 3 = s at hfacts ⊢
  have hsize : (openOn 0x1000000 s).f.size = .ok 0x1000000 := rfl
  have hbound := readFile_sizeBound_iff (fun _ src _ => .ok src) hsize hfacts.1 (by decide)
    (hasExtents_of_isOk hfacts.2)
  exact (hbound.mpr (by decide)).1 (by decide)

/-- On a device of 16 MiB a file grown beyond it is not refused; on one of 2 GiB a file of
    1 GiB and a byte is. -/
theorem readFile_ignores_deviceSize :
    (∃ i, pathLookup mapBackend (grownA 0x1000001) pathA = .ok i ∧ i.isRegular = true ∧
      HasExtents mapBackend (grownA 0x1000001) i.num ∧ 0x1000000 < i.size ∧
      ¬ RefusedForSize i ((openOn 0x1000000 (grownA 0x1000001)).readFile mapBackend
        (fun _ src _ => .ok src) pathA).1) ∧
    (∃ i, pathLookup mapBackend (grownA (2 ^ 30 + 1)) pathA = .ok i ∧ i.isRegular = true ∧
      HasExtents mapBackend (grownA (2 ^ 30 + 1)) i.num ∧ i.size ≤ 2 ^ 31 ∧
      RefusedForSize i ((openOn (2 ^ 31) (grownA (2 ^ 30 + 1))).readFile mapBackend
        (fun _ src _ => .ok src) pathA).1) := by
  have hfacts : (pathLookup mapBackend (grownA 0x1000001) pathA = .ok ⟨257, 0x81A4, 0x1000001, 1⟩ ∧
        (mapBackend.collectPrefixItems (grownA 0x1000001) 257 typeExtentData).toOption.any
          (!·.isEmpty) = true) ∧
      pathLookup mapBackend (grownA (2 ^ 30 + 1)) pathA = .ok ⟨257, 0x81A4, 2 ^ 30 + 1, 1⟩ ∧
        (mapBackend.collectPrefixItems (grownA (2 ^ 30 + 1)) 257 typeExtentData).toOption.any
          (!·.isEmpty) = true := by decide +kernel
  generalize grownA 0x1000001 = s, grownA (2 ^ 30 + 1) = s' at hfacts ⊢
  obtain ⟨⟨hp, hsome⟩, hp', hsome'⟩ := hfacts
  have hext := hasExtents_of_isOk hsome
  have hext' := hasExtents_of_isOk hsome'
  refine ⟨⟨_, hp, by decide, hext, by decide, ?_⟩, ⟨_, hp', by decide, hext', by decide, ?_⟩⟩
  · rw [BtrfsFS.readFile_eq]
    exact (readFile_refusedForSize_iff hp (by decide) hext).not.mpr (by decide)
  · rw [BtrfsFS.readFile_eq]
    exact (readFile_refusedForSize_iff hp' (by decide) hext').mpr (by decide)

end Btrfs
