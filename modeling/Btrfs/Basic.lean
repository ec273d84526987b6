/-
  Btrfs/Basic.lean
  ================
  **Keys, errors and addresses** — the data every layer of the driver shares.

  * `Key` is the on-disk key `(objectid, type, offset)`, ordered by `compareKeys`.
  * `Err` keeps an error the way the driver builds it: a sentinel, a message with
    its arguments, or a message wrapped around another error, so that `errors.Is`
    can be asked of it.
  * A `ChunkMapping` sends a range of logical addresses to the device.  Blocks are
    allocated by physical offset and named by logical address, so both directions
    occur (`physToLog`, `physFromLog`, `logToPhys`).

  Sizes and addresses are natural numbers.  Every offset is relative to the start
  of the partition, because each device access of the driver adds `partOff`.
-/
import Mathlib

namespace Btrfs

/-! ### Errors -/

/-- The error values the driver compares against with `errors.Is`. -/
inductive Sentinel
  | errNotFound
  | errLeafFull
  | errLoopLimit
  | errOutOfBounds
  | errExist
  | errLimit
  deriving DecidableEq, Repr

/-- An argument of a format string. -/
inductive ErrArg
  | num (n : Int)
  | str (s : String)
  | names (l : List (List UInt8))
  deriving DecidableEq, Repr

/-- `errorf` is an error without a cause, `wrap` is one built with `%w`. -/
inductive Err
  | sentinel (s : Sentinel)
  | errorf (format : String) (args : List ErrArg)
  | wrap (format : String) (args : List ErrArg) (cause : Err)
  deriving DecidableEq, Repr

/-- `errors.Is`. -/
def Err.is : Err → Sentinel → Bool
  | .sentinel s, t => s == t
  | .errorf _ _, _ => false
  | .wrap _ _ e, t => e.is t

/-! ### Keys -/

/-- An on-disk key: objectid, type, offset. -/
structure Key where
  objID : Nat
  typ : Nat
  offset : Nat
  deriving DecidableEq, Repr

/-- Negative, zero or positive as `k` is before, at or after `(objID, typ, offset)`. -/
def compareKeys (k : Key) (objID typ offset : Nat) : Int :=
  if k.objID ≠ objID then (if k.objID < objID then -1 else 1)
  else if k.typ ≠ typ then (if k.typ < typ then -1 else 1)
  else if k.offset ≠ offset then (if k.offset < offset then -1 else 1)
  else 0

namespace Key

/-- Objectid first, then type, then offset. -/
def le (a b : Key) : Prop :=
  a.objID < b.objID ∨ a.objID = b.objID ∧
    (a.typ < b.typ ∨ a.typ = b.typ ∧ a.offset ≤ b.offset)

instance : LE Key := ⟨Key.le⟩

instance (a b : Key) : Decidable (a ≤ b) :=
  inferInstanceAs (Decidable (_ ∨ _ ∧ (_ ∨ _ ∧ _)))

theorem le_def {a b : Key} : a ≤ b ↔
    a.objID < b.objID ∨ a.objID = b.objID ∧
      (a.typ < b.typ ∨ a.typ = b.typ ∧ a.offset ≤ b.offset) := Iff.rfl

theorem ext_iff' {a b : Key} :
    a = b ↔ a.objID = b.objID ∧ a.typ = b.typ ∧ a.offset = b.offset := by
  cases a; cases b; simp

instance : LinearOrder Key where
  le_refl a := by simp [le_def]
  le_trans a b c hab hbc := by
    rw [le_def] at *
    omega
  le_antisymm a b hab hba := by
    rw [le_def] at *
    rw [ext_iff']
    omega
  le_total a b := by
    rw [le_def, le_def]
    omega
  toDecidableLE := inferInstance

theorem lt_def {a b : Key} : a < b ↔
    a.objID < b.objID ∨ a.objID = b.objID ∧
      (a.typ < b.typ ∨ a.typ = b.typ ∧ a.offset < b.offset) := by
  rw [lt_iff_not_ge, le_def]
  omega

end Key

theorem compareKeys_le_zero {k : Key} {o t f : Nat} : compareKeys k o t f ≤ 0 ↔ k ≤ ⟨o, t, f⟩ := by
  unfold compareKeys
  rw [Key.le_def]
  split_ifs <;> simp only [] <;> omega

theorem compareKeys_pos {k : Key} {o t f : Nat} :
    0 < compareKeys k o t f ↔ (⟨o, t, f⟩ : Key) < k :=
  Int.not_le.symm.trans (compareKeys_le_zero.not.trans not_le)

/-! ### Addresses -/

/-- The part of a chunk a single-device image uses: logical `[logStart, logStart + size)`
    lies at physical `[physStart, physStart + size)`; `profile` holds the chunk type bits. -/
structure ChunkMapping where
  logStart : Nat
  size : Nat
  physStart : Nat
  profile : Nat
  deriving DecidableEq, Repr

def ChunkMapping.holdsLog (m : ChunkMapping) (logAddr : Nat) : Bool :=
  decide (m.logStart ≤ logAddr ∧ logAddr < m.logStart + m.size)

def ChunkMapping.holdsPhys (m : ChunkMapping) (phys : Nat) : Bool :=
  decide (m.physStart ≤ phys ∧ phys < m.physStart + m.size)

/-- The in-memory superblock. -/
structure Superblock where
  nodeSize : Nat
  sectorSize : Nat
  totalBytes : Nat
  rootLogAddr : Nat
  chunkLogAddr : Nat
  generation : Nat
  sysChunks : List ChunkMapping
  devID : Nat := 0
  bytesUsed : Nat := 0
  deriving DecidableEq, Repr

namespace Superblock

variable (sb : Superblock)

/-- The first chunk whose logical range holds the address. -/
def lookupChunk (logAddr : Nat) : Except Err ChunkMapping :=
  match sb.sysChunks.find? (·.holdsLog logAddr) with
  | some m => .ok m
  | none => .error (.errorf "btrfs: logical address 0x%X not in any known chunk" [.num logAddr])

def logToPhys (logAddr : Nat) : Except Err Nat :=
  match sb.lookupChunk logAddr with
  | .ok m => .ok (m.physStart + (logAddr - m.logStart))
  | .error e => .error e

/-- The device offset a read of `logAddr` starts at: `physAddr` checks that a chunk holds
    the address, and the device pool then sends the read to that chunk's local stripe. -/
def physAddr (logAddr : Nat) : Except Err Nat := sb.logToPhys logAddr

/-- The logical address of a physical offset, through the first chunk that holds it; an
    offset outside every chunk is taken to be its own logical address. -/
def physToLog (physOff : Nat) : Nat :=
  match sb.sysChunks.find? (·.holdsPhys physOff) with
  | some m => m.logStart + (physOff - m.physStart)
  | none => physOff

def physFromLog (logAddr : Nat) : Nat :=
  match sb.sysChunks.find? (·.holdsLog logAddr) with
  | some m => m.physStart + (logAddr - m.logStart)
  | none => logAddr

end Superblock

end Btrfs
