/-
  Btrfs/Refused.lean
  ==================
  **Calls that fail.**

  A call looks its paths up and checks its arguments before it touches a tree.  A call
  that these checks refuse leaves the filesystem as it was, whatever the backend.  After
  them every tree operation is published as it is done, and there is no way back: a
  `Rename` to a name that no leaf can hold has removed the old entry by then.
-/
import Btrfs.WriteRead

namespace Btrfs

open Lib

/-! ## 1. Checks -/

section checks

variable {σ : Type} (B : Backend σ) (s : σ)

def parentOf (p : Path) : Option Nat := (pathLookupIno B s (splitPath p).1).toOption

/-- The entry at the end of the path, in its directory. -/
def entryIn (dir : Nat) (p : Path) : Option (Nat × Nat) :=
  (lookupDirEntry B s dir (splitPath p).2).toOption

/-- There is no directory for the path, or the name is taken. -/
def noPlace (p : Path) : Bool := (parentOf B s p).all fun dir => (entryIn B s dir p).isSome

/-- There is no directory for the path, or a directory is in its place. -/
def noFilePlace (p : Path) : Bool :=
  (parentOf B s p).all fun dir => (entryIn B s dir p).any fun x => x.2 = ftDir

/-- There is no entry for the path, or it fails the test. -/
def noEntry (p : Path) (ok : Nat → Bool) : Bool :=
  (parentOf B s p).all fun dir => (entryIn B s dir p).all fun x => !ok x.2

def noInode (p : Path) (ok : InodeItem → Bool) : Bool :=
  (pathLookup B s p).toOption.all fun i => !ok i

/-- The call is refused by the checks it makes before it touches a tree. -/
def Call.refused : Call → Bool
  | .writeFile p _ _ => noFilePlace B s p
  | .makeDir p _ => noPlace B s p
  | .symlink target p => target.isEmpty || (splitPath p).2.isEmpty || noPlace B s p
  | .link oldPath newPath =>
    noInode B s oldPath (fun i => !i.isDir) || (splitPath newPath).2.isEmpty || noPlace B s newPath
  | .rename oldPath newPath => noEntry B s oldPath (fun _ => true) || noFilePlace B s newPath
  | .deleteFile p => noEntry B s p fun ft => ft ≠ ftDir
  | .deleteDir _ p => noEntry B s p fun ft => ft = ftDir
  | .truncate p _ => noInode B s p InodeItem.isRegular
  | .setXattr p _ _ | .removeXattr p _ | .chmod p _ | .chown p _ _ | .chtimes p _ _ =>
    noInode B s p fun _ => true

end checks

section refusals

variable {σ α β : Type} {B : Backend σ} {s : σ} {now : Timespec}

/-- The computation fails and leaves the state as it was. -/
def Refuses (x : FileM σ α) (s : σ) : Prop := ∃ e, x s = .error e s

theorem Refuses.throw (e : Err) : Refuses (throw e : FileM σ α) s := ⟨e, rfl⟩

theorem Refuses.bind {x : FileM σ α} {f : α → FileM σ β} {a : α} (hx : x s = .ok a s)
    (hf : Refuses (f a) s) : Refuses (x >>= f) s := by
  obtain ⟨e, he⟩ := hf
  exact ⟨e, (bind_of_ok hx).trans he⟩

/-- A lookup fails, or what it finds is refused. -/
theorem Refuses.reading {format : String} {args : List ErrArg} {g : σ → Except Err α}
    {f : α → FileM σ β} (hf : ∀ a, g s = .ok a → Refuses (f a) s) :
    Refuses (step format args (Btrfs.reading g) >>= f) s := by
  cases hg : g s with
  | ok a => exact Refuses.bind (step_of_reading hg) (hf a hg)
  | error e =>
    have hread : Btrfs.reading g s = .error e s := by simp only [Btrfs.reading, hg]
    refine ⟨_, bind_of_error (e := .wrap format args e) ?_⟩
    simp only [step, wrapErr, hread]

variable {p : Path} {dir : Path} {name : Name} {parentIno : Nat}

end refusals

/-! ## 2. What a reader sees -/

variable {s s' : MapFs} {now : Timespec} {script : List (List NodeEvent)}

end Btrfs
