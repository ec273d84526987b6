/-
  Btrfs/Lib/Striping.lean
  =======================
  **Striped ranges** — bytes dealt out to columns in strips of equal width.

  Byte `x` is in strip `x / w`.  The strips go to the `d` columns in turn, so the byte
  is in column `x / w % d`, in row `x / w / d`, and in its column it lies at depth
  `row * w + x % w`.  Column and depth determine the byte.

  Where some columns of a row do not hold data, the columns of row `r` may be turned by
  `r` places among `n`.  Turning keeps columns apart.
-/
import Mathlib

namespace Btrfs.Lib.Striping

def col (w d x : Nat) : Nat := x / w % d

def row (w d x : Nat) : Nat := x / w / d

/-- The offset of a byte in its column. -/
def depth (w d x : Nat) : Nat := row w d x * w + x % w

/-- What each column needs for `size` bytes. -/
def height (w d size : Nat) : Nat := (size + (d * w - 1)) / (d * w) * w

variable {w d x y j size : Nat}

theorem col_lt (hd : 0 < d) : col w d x < d := Nat.mod_lt _ hd

/-- Rows and offsets are the digits of the depth. -/
theorem depth_digits (hw : 0 < w) : depth w d x / w = row w d x ∧ depth w d x % w = x % w := by
  have hlt : x % w < w := Nat.mod_lt _ hw
  rw [depth, Nat.add_comm, Nat.add_mul_div_right _ _ hw, Nat.div_eq_of_lt hlt, Nat.zero_add,
    Nat.add_mul_mod_self_right, Nat.mod_mod]
  exact ⟨rfl, rfl⟩

theorem eq_of_col_of_depth (hw : 0 < w) (hcol : col w d x = col w d y)
    (hdepth : depth w d x = depth w d y) : x = y := by
  have hx := depth_digits (d := d) (x := x) hw
  have hy := depth_digits (d := d) (x := y) hw
  rw [hdepth] at hx
  have hrow : row w d x = row w d y := hx.1.symm.trans hy.1
  have hoff : x % w = y % w := hx.2.symm.trans hy.2
  have hstrip : x / w = y / w := by
    rw [← Nat.div_add_mod (x / w) d, ← Nat.div_add_mod (y / w) d]
    exact congrArg₂ (fun r c => d * r + c) hrow hcol
  rw [← Nat.div_add_mod x w, ← Nat.div_add_mod y w, hstrip, hoff]

theorem depth_lt_height (hw : 0 < w) (hd : 0 < d) (hx : x < size) :
    depth w d x < height w d size := by
  have hdw : 0 < d * w := Nat.mul_pos hd hw
  have hrow : row w d x < (size + (d * w - 1)) / (d * w) := by
    rw [row, Nat.div_div_eq_div_mul, Nat.mul_comm w d]
    calc x / (d * w) < x / (d * w) + 1 := Nat.lt_succ_self _
      _ = (x + d * w) / (d * w) := (Nat.add_div_right x hdw).symm
      _ ≤ (size + (d * w - 1)) / (d * w) := Nat.div_le_div_right (by omega)
  calc depth w d x < row w d x * w + w := Nat.add_lt_add_left (Nat.mod_lt _ hw) _
    _ = (row w d x + 1) * w := (Nat.succ_mul _ _).symm
    _ ≤ height w d size := Nat.mul_le_mul_right w hrow

/-- Up to the end of its strip, the bytes after a byte follow it in its column. -/
theorem along_strip (hj : x % w + j < w) :
    col w d (x + j) = col w d x ∧ row w d (x + j) = row w d x ∧
      depth w d (x + j) = depth w d x + j := by
  have hw : 0 < w := by omega
  have hsum : x + j = (x % w + j) + w * (x / w) := by
    have := Nat.div_add_mod x w
    omega
  have hstrip : (x + j) / w = x / w := by
    rw [hsum, Nat.add_mul_div_left _ _ hw, Nat.div_eq_of_lt hj, Nat.zero_add]
  have hoff : (x + j) % w = x % w + j := by
    rw [hsum, Nat.add_mul_mod_self_left, Nat.mod_eq_of_lt hj]
  simp only [col, row, depth, hstrip, hoff, true_and, Nat.add_assoc]

/-! ### Turned columns -/

/-- The place of column `c` among `n` in row `r`. -/
def turned (n c r : Nat) : Nat := (c + r) % n

variable {n c c' r : Nat}

theorem turned_lt (hn : 0 < n) : turned n c r < n := Nat.mod_lt _ hn

theorem turned_inj (hc : c < n) (hc' : c' < n) (h : turned n c r = turned n c' r) : c = c' :=
  Nat.ModEq.eq_of_lt_of_lt (Nat.ModEq.add_right_cancel' r h) hc hc'

end Btrfs.Lib.Striping
