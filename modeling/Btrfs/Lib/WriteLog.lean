/-
  Btrfs/Lib/WriteLog.lean
  =======================
  **A device as the log of the writes it has received** — newest first.

  A write puts one payload on a range of bytes.  Reading a block back succeeds when
  the newest write that touches any byte of the block is a write of exactly that
  block: a later write that overlaps it only in part has torn it.  Keeping the
  writes rather than a map from addresses makes a crash a plain list operation (the
  image after the first writes only is a suffix of the log), and it makes "what was
  read before is still read" a statement about one new entry.
-/
import Btrfs.Lib.Span

namespace Btrfs.Lib

/-- One device write: `payload` on the bytes `[addr, addr + len)`. -/
structure Write (π : Type) where
  addr : Nat
  len : Nat
  payload : π
  deriving DecidableEq, Repr

/-- The writes a device has received, the newest first. -/
abbrev WriteLog (π : Type) := List (Write π)

variable {π : Type}

def Write.span (w : Write π) : Span := ⟨w.addr, w.len⟩

/-- Some byte of `[a, a + n)` is written by `w`. -/
def Write.touches (w : Write π) (a n : Nat) : Bool :=
  decide (max w.addr a < min (w.addr + w.len) (a + n))

/-- What reading a block finds: bytes never written, one intact write, or a mixture. -/
inductive BlockRead (π : Type)
  | blank
  | intact (p : π)
  | torn
  deriving DecidableEq, Repr

/-- Read the block `[a, a + n)`: its newest write decides. -/
def WriteLog.readBlock (log : WriteLog π) (a n : Nat) : BlockRead π :=
  match log.find? (·.touches a n) with
  | some w => if w.addr = a ∧ w.len = n then .intact w.payload else .torn
  | none => .blank

theorem Write.touches_eq_false {w : Write π} {a n : Nat}
    (h : Disjoint w.span.bytes (⟨a, n⟩ : Span).bytes) : w.touches a n = false := by
  rw [Write.touches, decide_eq_false_iff_not]
  intro hlt
  have hmax : max w.addr a ∈ w.span.bytes ∧ max w.addr a ∈ (⟨a, n⟩ : Span).bytes := by
    simp only [Span.mem_bytes, Write.span]
    omega
  exact Set.disjoint_left.mp h hmax.1 hmax.2

/-- A block just written reads back. -/
theorem WriteLog.readBlock_cons_self {n : Nat} (hn : 0 < n) (a : Nat) (p : π) (log : WriteLog π) :
    WriteLog.readBlock (⟨a, n, p⟩ :: log) a n = .intact p := by
  have htouch : Write.touches (⟨a, n, p⟩ : Write π) a n = true := by
    simp [Write.touches, hn]
  simp [WriteLog.readBlock, htouch]

/-- A write elsewhere leaves every other block as it was. -/
theorem WriteLog.readBlock_cons_of_disjoint {w : Write π} {a n : Nat} (log : WriteLog π)
    (h : Disjoint w.span.bytes (⟨a, n⟩ : Span).bytes) :
    WriteLog.readBlock (w :: log) a n = WriteLog.readBlock log a n := by
  simp [WriteLog.readBlock, Write.touches_eq_false h]

/-! ### Single cells -/

section cells

variable {β : Type} [Inhabited β] (content : π → Option (List β))

/-- The cell at `p`: its newest write decides.  A write without a known content hides what is
    below it, and a cell never written has the default value. -/
def WriteLog.cellAt (log : WriteLog π) (p : Nat) : Option β :=
  match log.find? (·.touches p 1) with
  | none => some default
  | some w => (content w.payload).bind fun l => l[p - w.addr]?

/-- The cells `[a, a + n)`, if all of them are known. -/
def WriteLog.readCells (log : WriteLog π) : Nat → Nat → Option (List β)
  | _, 0 => some []
  | a, n + 1 => (log.cellAt content a).bind fun x => (log.readCells (a + 1) n).map (x :: ·)

variable {content}

theorem Write.touches_one {w : Write π} {p : Nat} :
    w.touches p 1 = true ↔ w.addr ≤ p ∧ p < w.addr + w.len := by
  rw [Write.touches, decide_eq_true_eq]
  omega

theorem WriteLog.cellAt_cons_of_not_mem {w : Write π} {log : WriteLog π} {p : Nat}
    (h : p ∉ w.span.bytes) : WriteLog.cellAt content (w :: log) p = log.cellAt content p := by
  have hfalse : w.touches p 1 = false := by
    rw [Bool.eq_false_iff, Ne, Write.touches_one]
    exact h
  simp [WriteLog.cellAt, hfalse]

theorem WriteLog.cellAt_cons_self {w : Write π} {log : WriteLog π} {p : Nat} {l : List β}
    (hc : content w.payload = some l) (hlo : w.addr ≤ p) (hhi : p < w.addr + w.len) :
    WriteLog.cellAt content (w :: log) p = l[p - w.addr]? := by
  have htrue : w.touches p 1 = true := Write.touches_one.mpr ⟨hlo, hhi⟩
  simp [WriteLog.cellAt, htrue, hc]

theorem WriteLog.readCells_eq_some {log : WriteLog π} {l : List β} :
    ∀ {n a : Nat}, log.readCells content a n = some l ↔
      l.length = n ∧ ∀ i < n, log.cellAt content (a + i) = l[i]? := by
  intro n
  induction n generalizing l with
  | zero =>
    intro a
    simp [WriteLog.readCells, eq_comm]
  | succ n ih =>
    intro a
    rw [WriteLog.readCells]
    constructor
    · intro h
      obtain ⟨x, hx, h⟩ := Option.bind_eq_some_iff.mp h
      obtain ⟨m, hm, rfl⟩ := Option.map_eq_some_iff.mp h
      obtain ⟨hlen, hcells⟩ := ih.mp hm
      refine ⟨by rw [List.length_cons, hlen], ?_⟩
      intro i hi
      cases i with
      | zero => exact hx
      | succ i =>
        rw [List.getElem?_cons_succ, ← hcells i (by omega)]
        congr 1
        omega
    · rintro ⟨hlen, hcells⟩
      cases l with
      | nil => cases hlen
      | cons x m =>
        have hx : log.cellAt content a = some x := hcells 0 (by omega)
        have hm : log.readCells content (a + 1) n = some m := by
          refine ih.mpr ⟨by simpa using hlen, ?_⟩
          intro i hi
          have := hcells (i + 1) (by omega)
          rw [List.getElem?_cons_succ] at this
          rw [← this]
          congr 1
          omega
        rw [hx, Option.bind_some, hm]
        rfl

/-- Cells that read the same one by one read the same together. -/
theorem WriteLog.readCells_congr {log log' : WriteLog π} {a n : Nat}
    (h : ∀ p, a ≤ p → p < a + n → log'.cellAt content p = log.cellAt content p) :
    log'.readCells content a n = log.readCells content a n := by
  induction n generalizing a with
  | zero => rfl
  | succ n ih =>
    rw [WriteLog.readCells, WriteLog.readCells, h a le_rfl (by omega)]
    rw [ih fun p hlo hhi => h p (by omega) (by omega)]

/-- Some of the cells that were read. -/
theorem WriteLog.readCells_slice {log : WriteLog π} {l : List β} {a n d k : Nat}
    (h : log.readCells content a n = some l) (hk : d + k ≤ n) :
    log.readCells content (a + d) k = some ((l.drop d).take k) := by
  obtain ⟨hlen, hcells⟩ := WriteLog.readCells_eq_some.mp h
  refine WriteLog.readCells_eq_some.mpr
    ⟨by rw [List.length_take, List.length_drop]; omega, fun i hi => ?_⟩
  rw [Nat.add_assoc, hcells (d + i) (by omega), List.getElem?_take, if_pos hi, List.getElem?_drop]

theorem WriteLog.readCells_take {log : WriteLog π} {l : List β} {a n k : Nat}
    (h : log.readCells content a n = some l) (hk : k ≤ n) :
    log.readCells content a k = some (l.take k) :=
  WriteLog.readCells_slice (d := 0) h (by omega)

end cells

end Btrfs.Lib
