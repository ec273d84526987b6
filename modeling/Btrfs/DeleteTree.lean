/-
  Btrfs/DeleteTree.lean
  =====================
  **What `DeleteDir` takes** — the entries below the directory and what has no other name.

  The call removes the entry of the directory and every entry below it, one at a time.  An
  inode goes with its last entry, and all of its items go with it; an inode that keeps a
  name outside keeps its data.  Whether an entry is the last one is read off the link
  count, so that a count which has fallen behind the entries takes the inode too early.
-/
import Btrfs.DirGraph
import Btrfs.Confined

namespace Btrfs

open Lib

variable {s s' : MapFs} {N N' : Names} {e : Entry} {now : Timespec} {l : List Entry}
  {script : List (List NodeEvent)} {p q : Path} {ino : Nat}

/-! ## 1. Items along a removal -/

/-- The types of the items that hold what an inode contains. -/
def contentTypes : List Nat := [typeExtentData, typeXattrItem]

/-- The extents and extended attributes of an inode. -/
def MapFs.content (s : MapFs) (ino : Nat) : List (Key × Bytes) :=
  s.records.keep fun k => decide (k.objID = ino ∧ k.typ ∈ contentTypes)

theorem not_dirKey_of_content {dir : Nat} {k : Key} (hk : k.typ ∈ contentTypes) : ¬ DirKey dir k := by
  rintro (⟨-, htyp⟩ | rfl)
  · simp [contentTypes, typeDirIndex, typeDirItem, typeExtentData, typeXattrItem] at hk htyp
    omega
  · exact absurd hk (by decide : typeInodeItem ∉ contentTypes)

theorem not_linkKey_of_content {k : Key} (hk : k.typ ∈ contentTypes) : ¬ LinkKey ino k := by
  rintro (⟨-, htyp⟩ | rfl)
  · exact absurd (htyp ▸ hk) (by decide : typeInodeRef ∉ contentTypes)
  · exact absurd hk (by decide : typeInodeItem ∉ contentTypes)

theorem FileKey.objID {k : Key} (h : FileKey ino k) : k.objID = ino := by
  rcases h with ⟨hobj, -⟩ | rfl
  · exact hobj
  · rfl

theorem DirKey.objID {dir : Nat} {k : Key} (h : DirKey dir k) : k.objID = dir := by
  rcases h with ⟨hobj, -⟩ | rfl
  · exact hobj
  · rfl

section removal

variable {dir : Nat} {name : Name}

theorem content_unlinkInodeOnly (hrun : unlinkInodeOnly mapBackend now ino dir name s = .ok () s')
    (ino' : Nat) : s'.content ino' = s.content ino' := by
  refine ((respects_confined.unlinkInodeOnly fun _ => id).of_ok hrun).kept _ fun k hk => ?_
  rw [decide_eq_true_eq] at hk
  rintro (hdir | hlink)
  · exact not_dirKey_of_content hk.2 hdir
  · exact not_linkKey_of_content hk.2 hlink

theorem content_removeInode_of_ne (hrun : removeInode mapBackend now ino dir name s = .ok () s')
    {ino' : Nat} (hne : ino' ≠ ino) : s'.content ino' = s.content ino' := by
  refine ((Respects.removeInode confined_setVol respects_confined fun _ => id).of_ok hrun).kept _ fun k hk => ?_
  rw [decide_eq_true_eq] at hk
  rintro (hdir | hfile)
  · exact not_dirKey_of_content hk.2 hdir
  · exact hne (hk.1.symm.trans hfile.objID)

/-- The keys that the rest of a drop may touch, once the content is gone. -/
theorem content_dropInode (hrun : dropInode mapBackend now ino dir name s = .ok () s') :
    s'.content ino = [] := by
  obtain ⟨_, t₁, hfree, hrun₁⟩ := run_bind.mp hrun
  obtain ⟨_, t₂, hclear, hrun₂⟩ := run_bind.mp hrun₁
  obtain ⟨_, t₃, hxattr, hrun₃⟩ := run_bind.mp hrun₂
  have hrec₂ := (deletePrefix_effect (run_wrapErr.mp hclear)).2
  have hrec₃ := (tolerateDeletePrefix_effect hxattr).2
  have hnil : t₃.content ino = [] := by
    rw [MapFs.content, hrec₃, List.eq_nil_iff_forall_not_mem]
    intro x hx
    obtain ⟨hmem, hx⟩ := List.mem_filter.mp hx
    rw [decide_eq_true_eq] at hx
    obtain ⟨hmem₂, hnotx⟩ := Records.mem_removeAll.mp hmem
    rw [hrec₂] at hmem₂
    obtain ⟨-, hnote⟩ := Records.mem_removeAll.mp hmem₂
    simp only [inPrefix, decide_eq_false_iff_not, not_and] at hnotx hnote
    rcases List.mem_pair.mp hx.2 with htyp | htyp
    · exact hnote hx.1 htyp
    · exact hnotx hx.1 htyp
  have hrest : Always (Confined fun k => DirKey dir k ∨ LinkKey ino k) (do
      tolerateNotFound "btrfs remove: inode ref: %w" (mapBackend.cowDelete ⟨ino, typeInodeRef, dir⟩)
      step "btrfs remove: inode item: %w" [] (mapBackend.cowDelete ⟨ino, typeInodeItem, 0⟩)
      removeDirIndex mapBackend "btrfs remove: dir index: %w" dir name
      tolerateNotFound "btrfs remove: dir item: %w"
        (mapBackend.cowDelete ⟨dir, typeDirItem, hashDirName name⟩)
      step "btrfs remove: shrink parent size: %w" []
        (adjustDirSize mapBackend dir (-dirEntrySizeDelta name))
      step "btrfs remove: touch parent: %w" [] (touchDir mapBackend now dir)
      mapBackend.updateFsTreeRoot : FileM MapFs Unit) := by
    refine Always.bind (always_tolerate (confined_delete (Or.inr (Or.inl ⟨rfl, rfl⟩)))) fun _ => ?_
    refine Always.bind (always_step (confined_delete (Or.inr (Or.inr rfl)))) fun _ => ?_
    refine Always.bind (respects_confined.removeDirIndex fun _ => Or.inl (DirKey.of (by decide))) fun _ => ?_
    refine Always.bind (always_tolerate (confined_delete (Or.inl (DirKey.of (by decide))))) fun _ => ?_
    refine Always.bind (always_step (respects_confined.adjustDirSize (Or.inl (Or.inr rfl)))) fun _ => ?_
    exact Always.bind (always_step (respects_confined.touchDir (Or.inl (Or.inr rfl)))) fun _ => confined_commit
  rw [← hnil]
  refine (hrest.of_ok hrun₃).kept _ fun k hk => ?_
  rw [decide_eq_true_eq] at hk
  rintro (hdir | hlink)
  · exact not_dirKey_of_content hk.2 hdir
  · exact not_linkKey_of_content hk.2 hlink

end removal

namespace Names

/-- The inode exists. -/
def Has (N : Names) (ino : Nat) : Prop := ino ∈ N.dirs ∨ ino ∈ N.files

theorem has_remove_of_ne (hne : ino ≠ e.ino) : (N.remove e).Has ino ↔ N.Has ino := by
  unfold remove Has
  split_ifs
  · exact Iff.rfl
  · simp [drop, hne]

end Names

/-- The content of an inode stays while the inode does, and goes with it. -/
theorem Removals.content (h : Removals now s N l s' N') (hs : Holds s N) (hino : N.Has ino) :
    (N'.Has ino → s'.content ino = s.content ino) ∧ (¬ N'.Has ino → s'.content ino = []) := by
  induction h with
  | nil => exact ⟨fun _ => rfl, fun hnot => absurd hino hnot⟩
  | same _ hrec ih =>
    rw [MapFs.content, hrec]
    exact ih
  | @remove l s₁ s₂ N₁ e h he hempty hrun ih =>
    have h₁ := h.holds hs
    by_cases hne : ino = e.ino
    · subst hne
      have hhas : N₁.Has e.ino := (h₁.wf.target e he).imp And.right And.right
      rcases removeInode_inv hrun with ⟨hothers, hunlink⟩ | ⟨hlast, hdrop⟩
      · obtain ⟨-, hlinks⟩ := (h₁.hasOtherLinks_iff he).mp hothers
        have hsame : (N₁.remove e).Has e.ino := by
          rw [Names.remove, if_pos hlinks]
          exact hhas
        refine ⟨fun _ => ?_, fun hnot => absurd hsame hnot⟩
        exact (content_unlinkInodeOnly hunlink e.ino).trans (ih.1 hhas)
      · have hlinks : ¬ 1 < N₁.links e.ino := by
          intro hlinks
          have hfile := h₁.wf.mem_files_of_links he hlinks
          rw [(h₁.hasOtherLinks_iff he).mpr ⟨hfile, hlinks⟩] at hlast
          cases hlast
        refine ⟨fun hhas' => ?_, fun _ => content_dropInode hdrop⟩
        rw [Names.remove, if_neg hlinks] at hhas'
        exact absurd hhas' (by simp [Names.Has, Names.drop])
    · rw [Names.has_remove_of_ne hne, content_removeInode_of_ne hrun hne]
      exact ih

namespace Holds

end Holds

/-! ## 3. The law -/

theorem Formatted.written (h : Formatted s) : ∀ x ∈ s.records.list, Written x.1 := by
  obtain ⟨now, hrec⟩ := h.records
  rw [hrec, fmtRecords]
  intro x hx
  rcases Records.mem_insert.mp hx with rfl | hx
  · exact Written.of (by decide)
  rcases Records.mem_insert.mp hx with rfl | hx
  · exact Written.inode
  · cases hx

/-- `WriteFile("/f")`, `MkDir("/a")`, `Link("/f", "/a/f")` and `Rename("/f", "/f")`, which takes one from
    the link count and leaves both entries. -/
def behindCalls : List Call :=
  [.writeFile [nameF] [1] 0o644, .makeDir [nameA] 0o755, .link [nameF] [nameA, nameF],
    .rename [nameF] [nameF]]

def shared : MapFs := (behindCalls.take 3).foldl (fun s c => c.after s) fmtMap

def behind : MapFs := (Call.rename [nameF] [nameF]).after shared

end Btrfs
