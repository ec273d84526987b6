/-
  Btrfs/Lib/Checked.lean
  ======================
  **Byte buffers with checked bounds.**

  A slice expression whose bounds do not lie in the buffer stops the program; so does a
  fixed-width read or write that reaches beyond its end.  `Checked ε` tells such a stop
  (`outOfRange`) from an error the program returns, so that "never indexes out of range"
  is a statement about the result (`InBounds`).
-/
import Btrfs.Lib.LittleEndian

namespace Btrfs.Lib

/-- Why a computation gave no value: it returned an error, or it indexed out of range. -/
inductive Fault (ε : Type)
  | err (e : ε)
  | outOfRange
  deriving DecidableEq, Repr

abbrev Checked (ε α : Type) := Except (Fault ε) α

variable {ε α β : Type} {b x : List UInt8} {lo hi w off v : Nat}

/-- The computation does not index out of range. -/
def InBounds (r : Checked ε α) : Prop := r ≠ .error .outOfRange

/-! ## 1. Accesses -/

/-- `b[lo:hi]`. -/
def slice (b : List UInt8) (lo hi : Nat) : Checked ε (List UInt8) :=
  if lo ≤ hi ∧ hi ≤ b.length then .ok ((b.drop lo).take (hi - lo)) else .error .outOfRange

/-- The field of `w` bytes at `off`. -/
def fieldAt (w off : Nat) (b : List UInt8) : Checked ε Nat :=
  if off + w ≤ b.length then .ok (leAt w off b) else .error .outOfRange

/-- Overwrite the field of `w` bytes at `off`. -/
def putField (w off v : Nat) (b : List UInt8) : Checked ε (List UInt8) :=
  if off + w ≤ b.length then .ok (putLE w off v b) else .error .outOfRange

/-- `copy(b[off:], x)`: what does not fit behind `off` is dropped. -/
def copyAt (off : Nat) (x b : List UInt8) : Checked ε (List UInt8) :=
  if off ≤ b.length then .ok (putAt off (x.take (b.length - off)) b) else .error .outOfRange

/-- `clear(b[lo:hi])`. -/
def clearRange (lo hi : Nat) (b : List UInt8) : Checked ε (List UInt8) :=
  if lo ≤ hi ∧ hi ≤ b.length then .ok (putAt lo (List.replicate (hi - lo) 0) b)
  else .error .outOfRange

theorem slice_of_le (hlo : lo ≤ hi) (hhi : hi ≤ b.length) :
    (slice b lo hi : Checked ε _) = .ok ((b.drop lo).take (hi - lo)) := if_pos ⟨hlo, hhi⟩

theorem fieldAt_of_le (h : off + w ≤ b.length) : (fieldAt w off b : Checked ε _) = .ok (leAt w off b) :=
  if_pos h

theorem fieldAt_append_mid {a m c : List UInt8} (h : off + w ≤ m.length) :
    (fieldAt w (a.length + off) (a ++ (m ++ c)) : Checked ε _) = .ok (leAt w off m) := by
  rw [fieldAt_of_le (by simp only [List.length_append]; omega), leAt_append_right,
    leAt_append_left h]

theorem putField_of_le (h : off + w ≤ b.length) :
    (putField w off v b : Checked ε _) = .ok (putLE w off v b) := if_pos h

theorem copyAt_of_le (h : off + x.length ≤ b.length) : (copyAt off x b : Checked ε _) = .ok (putAt off x b) := by
  rw [copyAt, if_pos (by omega), List.take_of_length_le (by omega)]

theorem clearRange_of_le (hlo : lo ≤ hi) (hhi : hi ≤ b.length) :
    (clearRange lo hi b : Checked ε _) = .ok (putAt lo (List.replicate (hi - lo) 0) b) := if_pos ⟨hlo, hhi⟩

/-! ## 2. Sequences of accesses -/

theorem Checked.ok_bind (a : α) (f : α → Checked ε β) : ((.ok a : Checked ε α) >>= f) = f a := rfl

/-- A computation that makes no access. -/
def Checked.ofExcept : Except ε α → Checked ε α
  | .ok a => .ok a
  | .error e => .error (.err e)

/-- Change the error that is returned. -/
def Checked.mapErr (f : ε → ε) : Checked ε α → Checked ε α
  | .error (.err e) => .error (.err (f e))
  | r => r

/-- Go on after an error that is returned, with the error as the value. -/
def Checked.attempt : Checked ε α → Checked ε (Except ε α)
  | .ok a => .ok (.ok a)
  | .error (.err e) => .ok (.error e)
  | .error .outOfRange => .error .outOfRange

theorem inBounds_ofExcept (r : Except ε α) : InBounds (Checked.ofExcept r) := by
  cases r <;> exact nofun

theorem mapM_eq_ok {f : α → Checked ε β} {g : α → β} {l : List α} (h : ∀ a ∈ l, f a = .ok (g a)) :
    l.mapM f = .ok (l.map g) := by
  induction l with
  | nil => rfl
  | cons a l ih =>
    rw [List.mapM_cons, h a List.mem_cons_self, ih fun a ha => h a (List.mem_cons_of_mem _ ha)]
    rfl

/-! ## 3. What a computation ensures -/

/-- No access is out of range, and a value that is returned satisfies `P`. -/
def Ensures (P : α → Prop) : Checked ε α → Prop
  | .ok a => P a
  | .error (.err _) => True
  | .error .outOfRange => False

variable {P Q : α → Prop} {r : Checked ε α}

theorem Ensures.inBounds (h : Ensures P r) : InBounds r := by
  rintro rfl
  exact h

theorem ensures_of_inBounds (h : InBounds r) : Ensures (fun _ => True) r := by
  match r with
  | .ok _ => trivial
  | .error (.err _) => trivial
  | .error .outOfRange => exact h rfl

theorem Ensures.mono (h : Ensures P r) (hPQ : ∀ a, P a → Q a) : Ensures Q r := by
  match r with
  | .ok a => exact hPQ a h
  | .error (.err _) => trivial
  | .error .outOfRange => exact h

/-- Sequential composition. -/
theorem Ensures.bind {R : β → Prop} {f : α → Checked ε β} (h : Ensures P r)
    (hf : ∀ a, P a → Ensures R (f a)) : Ensures R (r >>= f) := by
  match r with
  | .ok a => exact hf a h
  | .error (.err _) => trivial
  | .error .outOfRange => exact h

theorem Ensures.mapErr {f : ε → ε} (h : Ensures P r) : Ensures P (r.mapErr f) := by
  match r with
  | .ok a => exact h
  | .error (.err _) => trivial
  | .error .outOfRange => exact h

theorem Ensures.attempt (h : Ensures P r) :
    Ensures (fun s => ∀ a, s = .ok a → P a) r.attempt := by
  match r with
  | .ok a =>
    intro b hb
    cases hb
    exact h
  | .error (.err _) => exact nofun
  | .error .outOfRange => exact h

/-- A loop over a list keeps its invariant. -/
theorem Ensures.foldlM {γ : Type} {f : β → γ → Checked ε β} {I : β → Prop} {l : List γ} {b₀ : β}
    (h₀ : I b₀) (hf : ∀ b, ∀ c ∈ l, I b → Ensures I (f b c)) : Ensures I (l.foldlM f b₀) := by
  induction l generalizing b₀ with
  | nil => exact h₀
  | cons c l ih =>
    rw [List.foldlM_cons]
    apply (hf b₀ c List.mem_cons_self h₀).bind
    intro b hb
    exact ih hb fun b c hc => hf b c (List.mem_cons_of_mem _ hc)

theorem ensures_slice (hlo : lo ≤ hi) (hhi : hi ≤ b.length) :
    Ensures (fun s => s.length = hi - lo) (slice b lo hi : Checked ε _) := by
  rw [slice_of_le hlo hhi]
  simp only [Ensures, List.length_take, List.length_drop]
  omega

theorem ensures_fieldAt (h : off + w ≤ b.length) :
    Ensures (fun n => n = leAt w off b) (fieldAt w off b : Checked ε _) := by
  rw [fieldAt_of_le h]
  exact rfl

theorem ensures_copyAt (h : off + x.length ≤ b.length) :
    Ensures (fun b' => b'.length = b.length) (copyAt off x b : Checked ε _) := by
  rw [copyAt_of_le h]
  exact length_putAt h

theorem ensures_ofExcept (r : Except ε α) :
    Ensures (fun a => r = .ok a) (Checked.ofExcept r) := by
  cases r with
  | ok a => exact rfl
  | error e => trivial

end Btrfs.Lib
