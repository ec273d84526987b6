/-
  Btrfs/Lib/Crc32c.lean
  =====================
  **The Castagnoli CRC**, reflected, bit by bit.

  `crc32cUpdate` is `crc32.Update` with the Castagnoli table: the running value is
  inverted before and after the bytes are fed in.
-/
import Mathlib

namespace Btrfs.Lib

def castagnoli : Nat := 0x82F63B78

/-- Shift one bit out of the running value. -/
def crcBit (c : Nat) : Nat :=
  if c % 2 = 1 then (c / 2) ^^^ castagnoli else c / 2

/-- Feed one byte. -/
def crcByte (c : Nat) (x : UInt8) : Nat :=
  crcBit (crcBit (crcBit (crcBit (crcBit (crcBit (crcBit (crcBit (c ^^^ x.toNat))))))))

def crc32cUpdate (seed : Nat) (data : List UInt8) : Nat :=
  data.foldl crcByte (seed ^^^ 0xFFFFFFFF) ^^^ 0xFFFFFFFF

theorem crcBit_lt {c : Nat} (h : c < 2 ^ 32) : crcBit c < 2 ^ 32 := by
  have hhalf : c / 2 < 2 ^ 32 := Nat.lt_of_le_of_lt (Nat.div_le_self c 2) h
  unfold crcBit
  split
  · exact Nat.xor_lt_two_pow hhalf (by decide)
  · exact hhalf

theorem crcByte_lt {c : Nat} (h : c < 2 ^ 32) (x : UInt8) : crcByte c x < 2 ^ 32 := by
  have hfed : c ^^^ x.toNat < 2 ^ 32 :=
    Nat.xor_lt_two_pow h (Nat.lt_trans x.toNat_lt (by decide))
  exact crcBit_lt (crcBit_lt (crcBit_lt (crcBit_lt (crcBit_lt (crcBit_lt (crcBit_lt
    (crcBit_lt hfed)))))))

/-- The running value stays in 32 bits. -/
theorem crc32cUpdate_lt {seed : Nat} (h : seed < 2 ^ 32) (data : List UInt8) :
    crc32cUpdate seed data < 2 ^ 32 := by
  have hfold : ∀ (data : List UInt8) (c : Nat), c < 2 ^ 32 → data.foldl crcByte c < 2 ^ 32 := by
    intro data
    induction data with
    | nil => exact fun c hc => hc
    | cons x data ih => exact fun c hc => ih _ (crcByte_lt hc x)
  exact Nat.xor_lt_two_pow (hfold data _ (Nat.xor_lt_two_pow h (by decide))) (by decide)

/-- The check value of the polynomial. -/
example : crc32cUpdate 0 [0x31, 0x32, 0x33, 0x34, 0x35, 0x36, 0x37, 0x38, 0x39] = 0xE3069283 := by
  decide +kernel

end Btrfs.Lib
