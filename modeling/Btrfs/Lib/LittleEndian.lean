/-
  Btrfs/Lib/LittleEndian.lean
  ===========================
  **Little-endian fields of a byte string.**

  A structure on disk is a byte string with unsigned integers at fixed offsets.
  `leAt w off b` reads the field of `w` bytes at `off`, `putLE w off v b` overwrites it.
  What a reader needs of the two is that a field just written reads back, and that it
  leaves every other field alone.
-/
import Mathlib

namespace Btrfs.Lib

/-- The number little-endian bytes spell. -/
def leNat : List UInt8 → Nat
  | [] => 0
  | x :: b => x.toNat + 256 * leNat b

/-- The low `w` bytes of a number, least significant first. -/
def leBytes : Nat → Nat → List UInt8
  | 0, _ => []
  | w + 1, v => UInt8.ofNat v :: leBytes w (v / 256)

/-- The field of `w` bytes at `off`. -/
def leAt (w off : Nat) (b : List UInt8) : Nat := leNat ((b.drop off).take w)

/-- Overwrite the bytes at `off`. -/
def putAt (off : Nat) (x b : List UInt8) : List UInt8 := b.take off ++ x ++ b.drop (off + x.length)

/-- Overwrite the field of `w` bytes at `off`. -/
def putLE (w off v : Nat) (b : List UInt8) : List UInt8 := putAt off (leBytes w v) b

@[simp] theorem length_leBytes (w v : Nat) : (leBytes w v).length = w := by
  induction w generalizing v with
  | zero => rfl
  | succ w ih => rw [leBytes, List.length_cons, ih]

/-- Fields hold numbers modulo their width. -/
theorem leNat_leBytes (w v : Nat) : leNat (leBytes w v) = v % 256 ^ w := by
  induction w generalizing v with
  | zero => simp [leBytes, leNat, Nat.mod_one]
  | succ w ih =>
    have hsplit : v % (256 * 256 ^ w) = v % 256 + 256 * (v / 256 % 256 ^ w) := Nat.mod_mul
    rw [leBytes, leNat, ih, UInt8.toNat_ofNat', Nat.pow_succ' (m := 256), hsplit]

theorem leNat_leBytes_of_lt {w v : Nat} (h : v < 256 ^ w) : leNat (leBytes w v) = v := by
  rw [leNat_leBytes, Nat.mod_eq_of_lt h]

theorem leBytes_mod (w v : Nat) : leBytes w (v % 256 ^ w) = leBytes w v := by
  induction w generalizing v with
  | zero => rfl
  | succ w ih =>
    have hbyte : UInt8.ofNat (v % (256 * 256 ^ w)) = UInt8.ofNat v := by
      rw [← UInt8.toNat_inj, UInt8.toNat_ofNat', UInt8.toNat_ofNat', Nat.mod_mul_right_mod]
    rw [leBytes, leBytes, Nat.pow_succ' (m := 256), hbyte, Nat.mod_mul_right_div_self, ih]

theorem leNat_lt (b : List UInt8) : leNat b < 256 ^ b.length := by
  induction b with
  | nil => exact Nat.one_pos
  | cons x b ih =>
    have hx := x.toNat_lt
    rw [leNat, List.length_cons, Nat.pow_succ]
    omega

theorem leAt_drop (w i off : Nat) (b : List UInt8) : leAt w i (b.drop off) = leAt w (off + i) b := by
  rw [leAt, leAt, List.drop_drop]

theorem leAt_lt (w off : Nat) (b : List UInt8) : leAt w off b < 256 ^ w :=
  Nat.lt_of_lt_of_le (leNat_lt _) (Nat.pow_le_pow_right (by decide) (List.length_take_le w _))

/-- A field between known bytes. -/
theorem leAt_of_append {a b c : List UInt8} {w off v : Nat} (h : b = a ++ (leBytes w v ++ c))
    (ha : a.length = off) (hv : v < 256 ^ w) : leAt w off b = v := by
  rw [leAt, h, List.drop_left' ha, List.take_left' (length_leBytes w v), leNat_leBytes_of_lt hv]

/-- A field between known bytes is replaced. -/
theorem putLE_append {a c : List UInt8} {w off v v' : Nat} (ha : a.length = off) :
    putLE w off v' (a ++ (leBytes w v ++ c)) = a ++ (leBytes w v' ++ c) := by
  rw [putLE, putAt, List.take_left' ha, ← ha, length_leBytes, ← List.drop_drop, List.drop_left,
    List.drop_left' (length_leBytes w v), List.append_assoc]

section fields

variable {off off' w : Nat} {b x : List UInt8}

@[simp] theorem putAt_nil (off : Nat) (b : List UInt8) : putAt off [] b = b := by
  rw [putAt, List.append_nil, List.length_nil, Nat.add_zero, List.take_append_drop]

theorem length_putAt (h : off + x.length ≤ b.length) : (putAt off x b).length = b.length := by
  simp only [putAt, List.length_append, List.length_take, List.length_drop]
  omega

theorem length_putLE {v : Nat} (h : off + w ≤ b.length) : (putLE w off v b).length = b.length :=
  length_putAt (by rw [length_leBytes]; exact h)

theorem getElem?_putAt (hx : off + x.length ≤ b.length) (k : Nat) :
    (putAt off x b)[k]? = if off ≤ k ∧ k < off + x.length then x[k - off]? else b[k]? := by
  have htake : (b.take off).length = off := by rw [List.length_take]; omega
  rw [putAt, List.append_assoc]
  split_ifs with h
  · rw [List.getElem?_append_right (by omega), List.getElem?_append_left (by omega), htake]
  · by_cases hk : k < off
    · rw [List.getElem?_append_left (by omega), List.getElem?_take, if_pos hk]
    · rw [List.getElem?_append_right (by omega), List.getElem?_append_right (by omega),
        List.getElem?_drop, htake]
      congr 1
      omega

theorem take_drop_putAt_self (h : off ≤ b.length) :
    ((putAt off x b).drop off).take x.length = x := by
  have htake : (b.take off).length = off := by rw [List.length_take]; omega
  rw [putAt, List.append_assoc, List.drop_append_of_le_length (by omega),
    List.drop_eq_nil_of_le (by omega), List.nil_append, List.take_left']
  rfl

/-- A field just written reads back, modulo its width. -/
theorem leAt_putLE_mod {v : Nat} (hoff : off ≤ b.length) :
    leAt w off (putLE w off v b) = v % 256 ^ w := by
  have htake := take_drop_putAt_self (x := leBytes w v) hoff
  rw [length_leBytes] at htake
  rw [leAt, putLE, htake, leNat_leBytes]

theorem leAt_putLE_self {v : Nat} (hoff : off ≤ b.length) (hv : v < 256 ^ w) :
    leAt w off (putLE w off v b) = v := by
  rw [leAt_putLE_mod hoff, Nat.mod_eq_of_lt hv]

theorem putAt_append_right (a : List UInt8) : putAt (a.length + off) x (a ++ b) = a ++ putAt off x b := by
  rw [putAt, putAt, List.take_length_add_append, Nat.add_assoc, List.drop_length_add_append]
  simp only [List.append_assoc]

theorem putAt_append_left {c : List UInt8} (h : off + x.length ≤ b.length) :
    putAt off x (b ++ c) = putAt off x b ++ c := by
  rw [putAt, putAt, List.take_append_of_le_length (by omega), List.drop_append_of_le_length h]
  simp only [List.append_assoc]

theorem leAt_append_right (a : List UInt8) : leAt w (a.length + off) (a ++ b) = leAt w off b := by
  rw [leAt, leAt, List.drop_length_add_append]

theorem leAt_append_left {c : List UInt8} (h : off + w ≤ b.length) : leAt w off (b ++ c) = leAt w off b := by
  rw [leAt, leAt, List.drop_append_of_le_length (by omega),
    List.take_append_of_le_length (by rw [List.length_drop]; omega)]

/-- Bytes outside the written ones stay. -/
theorem take_drop_putAt_of_disjoint (hx : off + x.length ≤ b.length)
    (h : off' + w ≤ off ∨ off + x.length ≤ off') :
    ((putAt off x b).drop off').take w = (b.drop off').take w := by
  apply List.ext_getElem?
  intro i
  simp only [List.getElem?_take, List.getElem?_drop]
  split_ifs with hi
  · rw [getElem?_putAt hx, if_neg (by omega)]
  · rfl

/-- Equal bytes at two places make equal ranges. -/
theorem take_drop_congr {b' : List UInt8} (h : ∀ p < w, b'[off' + p]? = b[off + p]?) :
    (b'.drop off').take w = (b.drop off).take w := by
  apply List.ext_getElem?
  intro i
  simp only [List.getElem?_take, List.getElem?_drop]
  split_ifs with hi
  · exact h i hi
  · rfl

theorem leAt_congr {b' : List UInt8} (h : ∀ p < w, b'[off' + p]? = b[off + p]?) :
    leAt w off' b' = leAt w off b := by
  rw [leAt, leAt, take_drop_congr h]

/-- Every other field keeps its value. -/
theorem leAt_putAt_of_disjoint (hx : off + x.length ≤ b.length)
    (h : off' + w ≤ off ∨ off + x.length ≤ off') : leAt w off' (putAt off x b) = leAt w off' b := by
  rw [leAt, leAt, take_drop_putAt_of_disjoint hx h]

end fields

end Btrfs.Lib
