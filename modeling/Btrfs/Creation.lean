/-
  Btrfs/Creation.lean
  ===================
  **New names** — where a call may enter a name, and which.

  `WriteFile`, `MkDir`, `Symlink`, `Link` and `Rename` look the parent up and go on with
  whatever inode they find; none looks at its mode.  Nor is the name looked at, but that
  `Symlink` and `Link` turn an empty one down.  Where the entry that leads to the parent is
  that of a directory, and the path is not all `..` once it is clean, the parent is a
  directory and the name an ordinary one.
-/
import Btrfs.Paths
import Btrfs.Frame
import Btrfs.Refused

namespace Btrfs

open Lib

variable {s s' : MapFs} {N : Names} {c : Call} {now : Timespec} {script : List (List NodeEvent)}
  {p : Bytes} {q : Path}

/-! ## 1. What is asked of a call -/

/-- The last step to the parent of the path goes through an entry of a directory. -/
def ThroughDir (s : MapFs) (q : Path) : Prop :=
  ∀ d name mid ino ft, (splitPath q).1 = d ++ [name] → walkPath mapBackend s rootDirObjID d = .ok mid →
    lookupDirEntry mapBackend s mid name = .ok (ino, ft) → ft = ftDir

namespace Holds

theorem parentIsDir_of_mem (h : Holds s N) {dir : Nat}
    (hlook : pathLookupIno mapBackend s (splitPath q).1 = .ok dir) (hdir : dir ∈ N.dirs) :
    ParentIsDir s q := by
  obtain ⟨i, hi, hisdir, -⟩ := h.lookup_dir (h.way (pathLookupIno_inv hlook).1 hdir) hdir
  exact ⟨i, hi, hisdir⟩

/-- In a namespace, the entry says whether the parent is a directory. -/
theorem parentIsDir (h : Holds s N) (hthrough : ThroughDir s q) {parentIno : Nat}
    (hlook : pathLookupIno mapBackend s (splitPath q).1 = .ok parentIno) : ParentIsDir s q := by
  obtain ⟨hwalk, -⟩ := pathLookupIno_inv hlook
  refine h.parentIsDir_of_mem hlook ?_
  rcases List.eq_nil_or_concat (splitPath q).1 with hnil | ⟨d, name, hconcat⟩
  · rw [hnil, walkPath, Except.ok.injEq] at hwalk
    exact hwalk ▸ h.wf.root
  · rw [List.concat_eq_append] at hconcat
    rw [hconcat] at hwalk
    obtain ⟨mid, ft, hwalk', hentry⟩ := walkPath_concat_inv hwalk
    have hkind := hthrough d name mid parentIno ft hconcat hwalk' hentry
    obtain ⟨e, he, -, -, rfl, rfl⟩ := h.lookup_iff.mp hentry
    exact h.wf.ino_of_dirEntries e ⟨he, hkind⟩

end Holds

end Btrfs
