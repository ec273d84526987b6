/-
  Btrfs/Rename.lean
  =================
  **The law of `Rename`** — a file under its new name.

  The call clears the target with the removal of an inode, and then moves the entry.  The
  file that is moved is not touched by the removal, unless the target is another of its
  names: then its link count falls by one and nothing else happens to it.  If the target is
  the very name that is to be moved, the count says that this is the last name, and the
  removal takes the file.
-/
import Btrfs.Frame
import Btrfs.DeleteTree
import Btrfs.Sharing

namespace Btrfs

open Lib

variable {s s₁ s' : MapFs} {N N₁ : Names} {e e' : Entry} {now : Timespec}
  {script : List (List NodeEvent)} {p q : Path} {i : InodeItem} {codec : Codec}

/-! ## 1. The file that is moved -/

theorem CalmFiles.sameData (h : CalmFiles s s') (hs : Intact s) (ino : Nat) : SameData ino s s' := by
  have hch := h.churned hs.space
  refine ⟨hch.geometry, ?_, fun p hp => ?_⟩
  · have hfiles : s'.records.keep isFileKey = s.records.keep isFileKey := h.files
    rw [MapFs.body, MapFs.body, keep_body, keep_body, hfiles]
  · have hin := hs.body_inUse ino
    exact hch.cells p (Set.disjoint_left.mp hin.out hp) (Set.disjoint_left.mp hin.apart_super hp)

theorem content_moveEntry {srcObjID srcFtype dir dir' : Nat} {name name' : Name}
    (hrun : moveEntry mapBackend now srcObjID srcFtype dir dir' name name' s = .ok () s') (ino : Nat) :
    s'.content ino = s.content ino := by
  refine ((respects_confined.moveEntry fun _ => id).of_ok hrun).kept _ fun k hk => ?_
  rw [decide_eq_true_eq] at hk
  rintro (hdir | hdir | hlink)
  · exact not_dirKey_of_content hk.2 hdir
  · exact not_dirKey_of_content hk.2 hdir
  · exact not_linkKey_of_content hk.2 hlink

/-- A file is the same up to its link count. -/
structure SameFile (ino : Nat) (s s' : MapFs) : Prop where
  data : SameData ino s s'
  content : s'.content ino = s.content ino
  inode : ∀ i, s.inodes ino = some i → ∃ n, s'.inodes ino = some { i with nlink := n }

theorem SameFile.refl (ino : Nat) (s : MapFs) : SameFile ino s s :=
  ⟨⟨SameGeometry.refl _, rfl, fun _ _ => rfl⟩, rfl, fun i hi => ⟨i.nlink, hi⟩⟩

theorem SameFile.trans {ino : Nat} (h : SameFile ino s s₁) (h' : SameFile ino s₁ s') :
    SameFile ino s s' := by
  refine ⟨h.data.trans h'.data, h'.content.trans h.content, fun i hi => ?_⟩
  obtain ⟨n, hn⟩ := h.inode i hi
  obtain ⟨m, hm⟩ := h'.inode _ hn
  exact ⟨m, hm⟩

theorem Spares.sameFile {T : Set Nat} {ino : Nat} (h : Spares T s s') (hino : ino ∉ T)
    (hcontent : s'.content ino = s.content ino) : SameFile ino s s' := by
  refine ⟨h.sameData hino, hcontent, fun i hi => ⟨i.nlink, ?_⟩⟩
  rw [MapFs.inodes, h.inode ino hino]
  exact hi

/-- The removal of an entry leaves a file that has another one. -/
theorem Holds.sameFile_remove {x : Entry} (h : Holds s N) (hs : Intact s) (hx : x ∈ N.entries)
    (he : e ∈ N.entries) (hne : x ≠ e) (hfile : e.ino ∈ N.files)
    (hrun : removeInode mapBackend now x.ino x.dir x.name s = .ok () s') :
    SameFile e.ino s s' := by
  by_cases hino : e.ino = x.ino
  · have hlinks : 1 < N.links x.ino := Finset.one_lt_card.mpr ⟨x, Finset.mem_filter.mpr ⟨hx, rfl⟩, e,
      Finset.mem_filter.mpr ⟨he, hino⟩, hne⟩
    have hothers := (h.hasOtherLinks_iff hx).mpr ⟨hino ▸ hfile, hlinks⟩
    rcases removeInode_inv hrun with ⟨-, hunlink⟩ | ⟨hlast, -⟩
    · refine ⟨(calm_unlinkInodeOnly.of_ok hunlink).sameData hs _, content_unlinkInodeOnly hunlink _, ?_⟩
      intro i hi
      rw [hino] at hi ⊢
      exact ⟨_, h.inode_unlink hx hi hunlink⟩
    · rw [hothers] at hlast
      cases hlast
  · obtain ⟨-, hspares⟩ := steps_removeInode now x.name s () s' hs hrun
    refine hspares.sameFile ?_ (content_removeInode_of_ne hrun hino)
    rintro (heq | heq)
    · exact hino heq
    · exact Finset.disjoint_left.mp h.wf.apart (h.wf.dir x hx) (heq ▸ hfile)

theorem RenameSteps.sameFile (h : RenameSteps now p q s s₁ s' N N₁ e e') (hs : Intact s)
    (hN : Holds s N) (hfile : e.ino ∈ N.files) : SameFile e.ino s s' := by
  have hfirst : Intact s₁ ∧ SameFile e.ino s s₁ := by
    rcases h.cleared with ⟨x, hx, hne, -, -, -, hremove, -⟩ | ⟨rfl, -, -⟩
    · exact ⟨(steps_removeInode now x.name s () s₁ hs hremove).1,
        hN.sameFile_remove hs hx h.mem hne hfile hremove⟩
    · exact ⟨hs, SameFile.refl _ _⟩
  obtain ⟨-, hspares⟩ := steps_moveEntry now _ _ _ _ _ _ s₁ () s' hfirst.1 h.moved
  refine hfirst.2.trans (hspares.sameFile ?_ (content_moveEntry h.moved _))
  rintro (heq | heq)
  · exact Finset.disjoint_left.mp hN.wf.apart (hN.wf.dir e h.mem) (heq ▸ hfile)
  · exact Finset.disjoint_left.mp hN.wf.apart h.isDir (heq ▸ hfile)

/-! ## 2. Paths before and after -/

/-- A file that is moved leaves the directories where they are. -/
theorem RenameSteps.dirEntries (h : RenameSteps now p q s s₁ s' N N₁ e e') (hkind : e.ft ≠ ftDir) :
    (N₁.move e e').dirEntries = N.dirEntries := by
  ext x
  constructor
  · rintro ⟨hx, hft⟩
    rcases Finset.mem_insert.mp hx with rfl | hx
    · exact absurd (h.ft.symm.trans hft) hkind
    · exact ⟨h.sub (Finset.mem_of_mem_erase hx), hft⟩
  · rintro ⟨hx, hft⟩
    refine ⟨Finset.mem_insert_of_mem (Finset.mem_erase.mpr ⟨?_, ?_⟩), hft⟩
    · rintro rfl
      exact hkind hft
    · rcases h.cleared with ⟨y, -, -, -, -, hyft, -, rfl⟩ | ⟨-, rfl, -⟩
      · rw [Names.entries_remove]
        refine Finset.mem_erase.mpr ⟨?_, hx⟩
        rintro rfl
        exact hyft hft
      · exact hx

end Btrfs
