/-
  Btrfs/Inversion.lean
  ====================
  **What a call that succeeds has done** — one lemma a call, over any backend.

  A call looks its paths up, checks what it found and then changes the tree.  Each lemma
  gives the lookups, the outcome of the checks and the part of the call that changes the
  tree; the proofs about calls start from it and never unfold the call again.
-/
import Btrfs.FileEdits

namespace Btrfs

open Lib

variable {σ : Type} {B : Backend σ} {s s' : σ} {now : Timespec} {p dir : Path}
  {name : Name}

theorem reading_ok {α : Type} {f : σ → Except Err α} {a : α} :
    reading f s = .ok a s' ↔ f s = .ok a ∧ s' = s := by
  simp only [reading]
  cases f s with
  | error e => simp
  | ok b =>
    simp only [EStateM.Result.ok.injEq, Except.ok.injEq]
    exact and_congr_right fun _ => eq_comm

theorem step_reading_bind {α β : Type} {format : String} {args : List ErrArg} {f : σ → Except Err α}
    {g : α → FileM σ β} {b : β} (h : (step format args (reading f) >>= g) s = .ok b s') :
    ∃ a, f s = .ok a ∧ g a s = .ok b s' := by
  obtain ⟨a, s₁, hread, hrun⟩ := run_bind.mp h
  obtain ⟨hf, rfl⟩ := reading_ok.mp (run_wrapErr.mp hread)
  exact ⟨a, hf, hrun⟩

theorem step_of_reading {α : Type} {format : String} {args : List ErrArg} {f : σ → Except Err α}
    {a : α} (h : f s = .ok a) : step format args (reading f) s = .ok a s :=
  run_wrapErr.mpr (reading_ok.mpr ⟨h, rfl⟩)

/-! ## 1. Creating -/

theorem writeFile_inv {data : Bytes} {perm : Nat} (hp : splitPath p = (dir, name))
    (hrun : writeFile B now p data perm s = .ok () s') :
    ∃ parentIno, pathLookupIno B s dir = .ok parentIno ∧
      ((∃ ino ft, lookupDirEntry B s parentIno name = .ok (ino, ft) ∧ ft ≠ ftDir ∧
          overwriteFile B now ino data s = .ok () s') ∨
        (∃ e, lookupDirEntry B s parentIno name = .error e ∧
          createFile B now parentIno name data perm s = .ok () s')) := by
  simp only [writeFile, hp] at hrun
  obtain ⟨parentIno, hparent, hrun₁⟩ := step_reading_bind hrun
  have hrun₂ := run_get_bind.mp hrun₁
  refine ⟨parentIno, hparent, ?_⟩
  cases hlook : lookupDirEntry B s parentIno name with
  | error e =>
    rw [hlook] at hrun₂
    exact Or.inr ⟨e, rfl, hrun₂⟩
  | ok r =>
    obtain ⟨ino, ft⟩ := r
    rw [hlook] at hrun₂
    by_cases hdir : ft = ftDir
    · simp only [hdir, if_true] at hrun₂
      cases run_throw.mp hrun₂
    · simp only [hdir, if_false] at hrun₂
      exact Or.inl ⟨ino, ft, rfl, hdir, hrun₂⟩

theorem makeDir_inv {perm : Nat} (hp : splitPath p = (dir, name))
    (hrun : makeDir B now p perm s = .ok () s') :
    ∃ parentIno e, pathLookupIno B s dir = .ok parentIno ∧
      lookupDirEntry B s parentIno name = .error e ∧
      createDir B now parentIno name perm s = .ok () s' := by
  simp only [makeDir, hp] at hrun
  obtain ⟨parentIno, hparent, hrun₁⟩ := step_reading_bind hrun
  have hrun₂ := run_get_bind.mp hrun₁
  cases hlook : lookupDirEntry B s parentIno name with
  | error e =>
    rw [hlook] at hrun₂
    exact ⟨parentIno, e, hparent, hlook, hrun₂⟩
  | ok r =>
    rw [hlook] at hrun₂
    cases run_throw.mp hrun₂

theorem symlinkInode_inv {target : Bytes} (hp : splitPath p = (dir, name))
    (hrun : symlinkInode B now target p s = .ok () s') :
    target ≠ [] ∧ name ≠ [] ∧
      ∃ parentIno e, pathLookupIno B s dir = .ok parentIno ∧
        lookupDirEntry B s parentIno name = .error e ∧
        createInodeWithDirEntry B now parentIno name target symlinkMode ftSymlink
          "symlink" s = .ok () s' := by
  simp only [symlinkInode, hp] at hrun
  by_cases htarget : target.isEmpty = true
  · simp only [htarget, if_true] at hrun
    cases run_throw.mp hrun
  simp only [htarget, Bool.false_eq_true, if_false] at hrun
  by_cases hname : name.isEmpty = true
  · simp only [hname, if_true] at hrun
    cases run_throw.mp hrun
  simp only [hname, Bool.false_eq_true, if_false] at hrun
  obtain ⟨parentIno, hparent, hrun₁⟩ := step_reading_bind hrun
  have hrun₂ := run_get_bind.mp hrun₁
  refine ⟨by simpa using htarget, by simpa using hname, parentIno, ?_⟩
  cases hlook : lookupDirEntry B s parentIno name with
  | error e =>
    rw [hlook] at hrun₂
    exact ⟨e, hparent, rfl, hrun₂⟩
  | ok r =>
    rw [hlook] at hrun₂
    cases run_throw.mp hrun₂

theorem linkInode_inv {oldPath : Path} (hp : splitPath p = (dir, name))
    (hrun : linkInode B now oldPath p s = .ok () s') :
    ∃ src parentIno e, pathLookup B s oldPath = .ok src ∧ src.isDir = false ∧
      name ≠ [] ∧ pathLookupIno B s dir = .ok parentIno ∧
      lookupDirEntry B s parentIno name = .error e ∧
      addLink B now src parentIno name s = .ok () s' := by
  simp only [linkInode, hp] at hrun
  obtain ⟨src, hsrc, hrun₁⟩ := step_reading_bind hrun
  by_cases hdir : src.isDir = true
  · rw [if_pos hdir] at hrun₁
    cases run_throw.mp hrun₁
  rw [if_neg hdir] at hrun₁
  by_cases hname : name.isEmpty = true
  · simp only [hname, if_true] at hrun₁
    cases run_throw.mp hrun₁
  simp only [hname, Bool.false_eq_true, if_false] at hrun₁
  obtain ⟨parentIno, hparent, hrun₂⟩ := step_reading_bind hrun₁
  have hrun₃ := run_get_bind.mp hrun₂
  refine ⟨src, parentIno, ?_⟩
  cases hlook : lookupDirEntry B s parentIno name with
  | error e =>
    rw [hlook] at hrun₃
    exact ⟨e, hsrc, by simpa using hdir, by simpa using hname, hparent, rfl, hrun₃⟩
  | ok r =>
    rw [hlook] at hrun₃
    cases run_throw.mp hrun₃

/-! ## 2. Removing and renaming -/

theorem deleteFile_inv (hp : splitPath p = (dir, name))
    (hrun : deleteFile B now p s = .ok () s') :
    ∃ parentIno ino ft, pathLookupIno B s dir = .ok parentIno ∧
      lookupDirEntry B s parentIno name = .ok (ino, ft) ∧ ft ≠ ftDir ∧
      removeInode B now ino parentIno name s = .ok () s' := by
  simp only [deleteFile, hp] at hrun
  obtain ⟨parentIno, hparent, hrun₁⟩ := step_reading_bind hrun
  obtain ⟨⟨ino, ft⟩, hlook, hrun₂⟩ := step_reading_bind hrun₁
  by_cases hdir : ft = ftDir
  · simp only [hdir, if_true] at hrun₂
    cases run_throw.mp hrun₂
  · simp only [hdir, if_false] at hrun₂
    exact ⟨parentIno, ino, ft, hparent, hlook, hdir, hrun₂⟩

theorem deleteDir_inv {depth : Nat} (hp : splitPath p = (dir, name))
    (hrun : deleteDir B now depth p s = .ok () s') :
    ∃ parentIno ino, pathLookupIno B s dir = .ok parentIno ∧
      lookupDirEntry B s parentIno name = .ok (ino, ftDir) ∧
      (do
        purgeDirContents B now depth ino
        step "btrfs deletedir: remove dot entries: %w" [] (B.cowDeletePrefix ino typeDirIndex)
        removeInode B now ino parentIno name : FileM σ Unit) s = .ok () s' := by
  simp only [deleteDir, hp] at hrun
  obtain ⟨parentIno, hparent, hrun₁⟩ := step_reading_bind hrun
  obtain ⟨⟨ino, ft⟩, hlook, hrun₂⟩ := step_reading_bind hrun₁
  by_cases hdir : ft = ftDir
  · subst hdir
    simp only [ne_eq, not_true_eq_false, if_false] at hrun₂
    exact ⟨parentIno, ino, hparent, hlook, hrun₂⟩
  · simp only [ne_eq, hdir, not_false_eq_true, if_true] at hrun₂
    cases run_throw.mp hrun₂

theorem renameEntry_inv {newPath newDir : Path} {newName : Name} (hp : splitPath p = (dir, name))
    (hp' : splitPath newPath = (newDir, newName))
    (hrun : renameEntry B now p newPath s = .ok () s') :
    ∃ oldParentIno ino ft newParentIno s₁,
      pathLookupIno B s dir = .ok oldParentIno ∧
      lookupDirEntry B s oldParentIno name = .ok (ino, ft) ∧
      pathLookupIno B s newDir = .ok newParentIno ∧
      ((∃ dst dstFt, lookupDirEntry B s newParentIno newName = .ok (dst, dstFt) ∧
          dstFt ≠ ftDir ∧
          removeInode B now dst newParentIno newName s = .ok () s₁) ∨
        (∃ e, lookupDirEntry B s newParentIno newName = .error e ∧ s₁ = s)) ∧
      moveEntry B now ino ft oldParentIno newParentIno name newName s₁ =
        .ok () s' := by
  simp only [renameEntry, hp, hp'] at hrun
  obtain ⟨oldParentIno, hold, hrun₁⟩ := step_reading_bind hrun
  obtain ⟨⟨ino, ft⟩, hlook, hrun₂⟩ := step_reading_bind hrun₁
  obtain ⟨newParentIno, hnew, hrun₃⟩ := step_reading_bind hrun₂
  have hrun₄ := run_get_bind.mp hrun₃
  cases hdst : lookupDirEntry B s newParentIno newName with
  | error e =>
    rw [hdst] at hrun₄
    exact ⟨oldParentIno, ino, ft, newParentIno, s, hold, hlook, hnew, Or.inr ⟨e, hdst, rfl⟩, hrun₄⟩
  | ok r =>
    obtain ⟨dst, dstFt⟩ := r
    rw [hdst] at hrun₄
    by_cases hdir : dstFt = ftDir
    · simp only [hdir, if_true] at hrun₄
      cases run_throw.mp hrun₄
    · simp only [hdir, if_false] at hrun₄
      obtain ⟨_, s₁, hremove, hmove⟩ := run_bind.mp hrun₄
      exact ⟨oldParentIno, ino, ft, newParentIno, s₁, hold, hlook, hnew,
        Or.inl ⟨dst, dstFt, hdst, hdir, run_wrapErr.mp hremove⟩, hmove⟩

theorem removeInode_inv {ino parentIno : Nat} {name : Name}
    (hrun : removeInode B now ino parentIno name s = .ok () s') :
    (hasOtherLinks B s ino = true ∧ unlinkInodeOnly B now ino parentIno name s = .ok () s') ∨
      (hasOtherLinks B s ino = false ∧ dropInode B now ino parentIno name s = .ok () s') := by
  simp only [removeInode] at hrun
  cases hlinks : hasOtherLinks B s ino with
  | true =>
    simp only [hlinks, if_true] at hrun
    exact Or.inl ⟨rfl, hrun⟩
  | false =>
    simp only [hlinks, Bool.false_eq_true, if_false] at hrun
    exact Or.inr ⟨rfl, hrun⟩

/-! ## 3. Editing -/

theorem setAttr_inv {format : String} {mutator : Bytes → Bytes}
    (hrun : setAttr B now format p mutator s = .ok () s') :
    ∃ i, pathLookup B s p = .ok i ∧ updateInodeMetadata B now i.num (fun _ => mutator) s = .ok () s' := by
  obtain ⟨i, hlook, hrun₁⟩ := step_reading_bind hrun
  exact ⟨i, hlook, hrun₁⟩

theorem truncateInode_cases {newSize : Nat} (hrun : truncateInode B now p newSize s = .ok () s') :
    ∃ i, pathLookup B s p = .ok i ∧ i.isRegular = true ∧
      (i.size < newSize ∧
          updateInodeMetadata B now i.num (fun _ d => putLE 8 inodeOffSize newSize d) s = .ok () s' ∨
        newSize = i.size ∧ updateInodeMetadata B now i.num (fun _ d => d) s = .ok () s' ∨
        newSize < i.size ∧ ∃ s₁, cutExtents B i.num newSize s = .ok () s₁ ∧
          updateInodeMetadata B now i.num (fun s d =>
            putLE 8 inodeOffNBytes (extentBytesOf B s i.num) (putLE 8 inodeOffSize newSize d)) s₁ =
            .ok () s') := by
  obtain ⟨i, hlook, hrun₁⟩ := step_reading_bind hrun
  cases hreg : i.isRegular with
  | false =>
    simp only [hreg, Bool.not_false, if_true] at hrun₁
    cases run_throw.mp hrun₁
  | true =>
    simp only [hreg, Bool.not_true, Bool.false_eq_true, if_false] at hrun₁
    refine ⟨i, hlook, hreg, ?_⟩
    by_cases hgrow : i.size < newSize
    · rw [if_pos hgrow] at hrun₁
      exact Or.inl ⟨hgrow, hrun₁⟩
    rw [if_neg hgrow] at hrun₁
    by_cases hsame : newSize = i.size
    · rw [if_pos hsame] at hrun₁
      exact Or.inr (Or.inl ⟨hsame, hrun₁⟩)
    rw [if_neg hsame] at hrun₁
    obtain ⟨_, t₂, hcut, hrun₂⟩ := run_bind.mp hrun₁
    exact Or.inr (Or.inr ⟨by omega, t₂, hcut, hrun₂⟩)

/-- The edits of an INODE_ITEM that `truncateInode` makes. -/
inductive TruncateEdit (newSize : Nat) : (σ → Bytes → Bytes) → Prop
  | grow : TruncateEdit newSize fun _ d => putLE 8 inodeOffSize newSize d
  | same : TruncateEdit newSize fun _ d => d
  | shrink (n : σ → Nat) :
      TruncateEdit newSize fun s d => putLE 8 inodeOffNBytes (n s) (putLE 8 inodeOffSize newSize d)

theorem truncateInode_inv {newSize : Nat} (hrun : truncateInode B now p newSize s = .ok () s') :
    ∃ i f s₁, pathLookup B s p = .ok i ∧ i.isRegular = true ∧
      (s₁ = s ∨ newSize < i.size ∧ cutExtents B i.num newSize s = .ok () s₁) ∧
      TruncateEdit newSize f ∧ updateInodeMetadata B now i.num f s₁ = .ok () s' := by
  obtain ⟨i, hlook, hreg, hcase⟩ := truncateInode_cases hrun
  rcases hcase with ⟨-, hedit⟩ | ⟨-, hedit⟩ | ⟨hlt, s₁, hcut, hedit⟩
  · exact ⟨i, _, s, hlook, hreg, Or.inl rfl, TruncateEdit.grow, hedit⟩
  · exact ⟨i, _, s, hlook, hreg, Or.inl rfl, TruncateEdit.same, hedit⟩
  · exact ⟨i, _, s₁, hlook, hreg, Or.inr ⟨hlt, hcut⟩, TruncateEdit.shrink _, hedit⟩

theorem setXattrInode_inv {name : Name} {value : Bytes}
    (hrun : setXattrInode B now p name value s = .ok () s') :
    ∃ i s₁, pathLookup B s p = .ok i ∧
      (B.cowUpdate ⟨i.num, typeXattrItem, hashDirName name⟩ (encodeXattrItemPayload name value) s =
          .ok () s₁ ∨
        (∃ e, B.searchTree s ⟨i.num, typeXattrItem, hashDirName name⟩ = .error e) ∧
          B.cowInsert ⟨i.num, typeXattrItem, hashDirName name⟩ (encodeXattrItemPayload name value) s =
            .ok () s₁) ∧
      updateInodeMetadata B now i.num (fun _ d => d) s₁ = .ok () s' := by
  obtain ⟨i, hlook, hrun₁⟩ := step_reading_bind hrun
  have hrun₂ := run_get_bind.mp hrun₁
  cases hold : B.searchTree s ⟨i.num, typeXattrItem, hashDirName name⟩ with
  | ok d =>
    rw [hold] at hrun₂
    obtain ⟨_, t₃, hset, hrun₃⟩ := run_bind.mp hrun₂
    exact ⟨i, t₃, hlook, Or.inl (run_wrapErr.mp hset), run_wrapErr.mp hrun₃⟩
  | error e =>
    rw [hold] at hrun₂
    obtain ⟨_, t₃, hset, hrun₃⟩ := run_bind.mp hrun₂
    exact ⟨i, t₃, hlook, Or.inr ⟨⟨e, hold⟩, run_wrapErr.mp hset⟩, run_wrapErr.mp hrun₃⟩

theorem removeXattrInode_inv {name : Name} (hrun : removeXattrInode B now p name s = .ok () s') :
    ∃ i s₁, pathLookup B s p = .ok i ∧
      B.cowDelete ⟨i.num, typeXattrItem, hashDirName name⟩ s = .ok () s₁ ∧
      updateInodeMetadata B now i.num (fun _ d => d) s₁ = .ok () s' := by
  obtain ⟨i, hlook, hrun₁⟩ := step_reading_bind hrun
  obtain ⟨_, t₂, hdel, hrun₂⟩ := run_bind.mp hrun₁
  exact ⟨i, t₂, hlook, run_wrapErr.mp hdel, hrun₂⟩

end Btrfs
