/-
  Btrfs/StepRules.lean
  ====================
  **Rules for the steps of a call.**

  A call is a sequence of tree operations at keys that it names.  A relation between the
  states before and after that follows from itself twice over, and that holds of every
  tree operation at the keys of a set, holds of every step that names no other key,
  whether the step succeeds or fails.  What a call can do is said here once, and what
  follows from it is left to the relation.
-/
import Btrfs.Runs

namespace Btrfs

open Lib

variable {s s' : MapFs} {ino parentIno : Nat} {now : Timespec}

/-! ## 1. Errors -/

section errors

variable {α : Type} {R : MapFs → MapFs → Prop} {x : FileM MapFs Unit}

theorem always_step {x : FileM MapFs α} {format : String} {args : List ErrArg} (h : Always R x) :
    Always R (step format args x) := h.wrapErr

theorem always_tolerate {format : String} (h : Always R x) :
    Always R (tolerateNotFound format x) := by
  intro s
  have hx := h s
  simp only [tolerateNotFound]
  cases hrun : x s with
  | ok u t => rw [hrun] at hx; exact hx
  | error e t =>
    rw [hrun] at hx
    by_cases hnf : e.is .errNotFound = true
    · simp only [hnf, if_true]
      exact hx
    · simp only [hnf, Bool.false_eq_true, if_false]
      exact hx

theorem always_ignore (h : Always R x) : Always R (ignoreError x) := by
  intro s
  have hx := h s
  rw [ignoreError_eq]
  exact hx

end errors

/-! ## 2. Keys -/

/-- The items a directory has for its entries, and its INODE_ITEM. -/
def DirKey (dir : Nat) (k : Key) : Prop :=
  k.objID = dir ∧ k.typ ∈ [typeDirIndex, typeDirItem] ∨ k = ⟨dir, typeInodeItem, 0⟩

/-- The items that say how an inode is linked. -/
def LinkKey (ino : Nat) (k : Key) : Prop :=
  k.objID = ino ∧ k.typ = typeInodeRef ∨ k = ⟨ino, typeInodeItem, 0⟩

/-- The items of an inode that is not a directory. -/
def FileKey (ino : Nat) (k : Key) : Prop :=
  k.objID = ino ∧ k.typ ∈ [typeInodeRef, typeExtentData, typeXattrItem] ∨ k = ⟨ino, typeInodeItem, 0⟩

theorem DirKey.of {dir typ off : Nat} (htyp : typ ∈ [typeDirIndex, typeDirItem]) :
    DirKey dir ⟨dir, typ, off⟩ := Or.inl ⟨rfl, htyp⟩

theorem FileKey.of {ino typ off : Nat} (htyp : typ ∈ [typeInodeRef, typeExtentData, typeXattrItem]) :
    FileKey ino ⟨ino, typ, off⟩ := Or.inl ⟨rfl, htyp⟩

theorem LinkKey.fileKey {k : Key} (h : LinkKey ino k) : FileKey ino k := by
  refine h.imp_left fun hlink => ⟨hlink.1, ?_⟩
  rw [hlink.2]
  decide

def itemTypes : List Nat :=
  [typeInodeRef, typeDirItem, typeDirIndex, typeExtentData, typeXattrItem]

/-- A key that the driver gives to an item. -/
def Written (k : Key) : Prop := k.typ ∈ itemTypes ∨ k = ⟨k.objID, typeInodeItem, 0⟩

theorem Written.of {obj typ off : Nat} (h : typ ∈ itemTypes) : Written ⟨obj, typ, off⟩ := Or.inl h

theorem Written.inode : Written ⟨ino, typeInodeItem, 0⟩ := Or.inr rfl

theorem DirKey.written {dir : Nat} {k : Key} (h : DirKey dir k) : Written k := by
  rcases h with ⟨-, htyp⟩ | rfl
  · left
    simp only [itemTypes, List.mem_cons] at htyp ⊢
    tauto
  · exact Written.inode

theorem FileKey.written {k : Key} (h : FileKey ino k) : Written k := by
  rcases h with ⟨-, htyp⟩ | rfl
  · left
    simp only [itemTypes, List.mem_cons] at htyp ⊢
    tauto
  · exact Written.inode

/-! ## 3. Steps -/

/-- Every tree operation at keys of `P` takes a state to one it is related to. -/
structure Respects (R : MapFs → MapFs → Prop) (P : Key → Prop) : Prop where
  insert : ∀ {k : Key} {d : Bytes}, P k → Always R (mapBackend.cowInsert k d)
  update : ∀ {k : Key} {d : Bytes}, P k → Always R (mapBackend.cowUpdate k d)
  delete : ∀ {k : Key}, P k → Always R (mapBackend.cowDelete k)
  deletePrefix : ∀ {objID typ : Nat}, (∀ off, P ⟨objID, typ, off⟩) →
    Always R (mapBackend.cowDeletePrefix objID typ)
  commit : Always R mapBackend.updateFsTreeRoot

namespace Respects

variable {R : MapFs → MapFs → Prop} [IsPreorder MapFs R] {P : Key → Prop}

section steps

variable {readErr updateErr format : String} {f : MapFs → Bytes → Bytes} {name : Name} {delta : Int}
  (h : Respects R P)
include h

theorem editInode (hP : P ⟨ino, typeInodeItem, 0⟩) :
    Always R (editInode mapBackend ino readErr updateErr f) := by
  intro s
  simp only [Btrfs.editInode]
  cases mapBackend.searchTree s ⟨ino, typeInodeItem, 0⟩ with
  | error e => exact refl_of R s
  | ok d => exact always_step (h.update hP) s

theorem adjustDirSize (hP : P ⟨ino, typeInodeItem, 0⟩) :
    Always R (adjustDirSize mapBackend ino delta) := by
  rw [Btrfs.adjustDirSize]
  split_ifs
  · exact Always.pure ()
  · exact h.editInode hP

theorem touchDir (hP : P ⟨ino, typeInodeItem, 0⟩) : Always R (touchDir mapBackend now ino) :=
  h.editInode hP

theorem updateInodeMetadata (hP : P ⟨ino, typeInodeItem, 0⟩) :
    Always R (updateInodeMetadata mapBackend now ino f) :=
  Always.bind (h.editInode hP) fun _ => h.commit

theorem appendInodeRef {idx : Nat} (hP : P ⟨ino, typeInodeRef, parentIno⟩) :
    Always R (appendInodeRef mapBackend ino parentIno idx name) := by
  intro s
  simp only [Btrfs.appendInodeRef]
  cases mapBackend.searchTree s ⟨ino, typeInodeRef, parentIno⟩ with
  | error e => exact always_step (h.insert hP) s
  | ok d =>
    dsimp only
    split_ifs
    · exact refl_of R s
    · exact always_step (h.update hP) s

theorem removeInodeRef (hP : P ⟨ino, typeInodeRef, parentIno⟩) :
    Always R (removeInodeRef mapBackend ino parentIno name) := by
  intro s
  simp only [Btrfs.removeInodeRef]
  cases mapBackend.searchTree s ⟨ino, typeInodeRef, parentIno⟩ with
  | error e => exact refl_of R s
  | ok d =>
    dsimp only
    split_ifs
    · exact always_step (h.delete hP) s
    · exact always_step (h.update hP) s

theorem removeDirIndex (hP : ∀ idx, P ⟨ino, typeDirIndex, idx⟩) :
    Always R (removeDirIndex mapBackend format ino name) := by
  intro s
  simp only [Btrfs.removeDirIndex]
  cases hc : mapBackend.collectPrefixItems s ino typeDirIndex with
  | error e => exact refl_of R s
  | ok items =>
    cases hfind : items.find? fun e => decide (dirItemName e.2 = some name) with
    | none => exact refl_of R s
    | some e =>
      obtain ⟨rfl, htyp⟩ := (typ_of_collect hc).2 e (List.mem_of_find?_eq_some hfind)
      have hkey : e.1 = ⟨e.1.objID, typeDirIndex, e.1.offset⟩ := by rw [← htyp]
      exact always_step (h.delete (hkey ▸ hP e.1.offset)) s

theorem insertDirEntry {indexErr itemErr : String} {args : List ErrArg} {idxOff : Nat}
    {entry : Bytes} (hindex : P ⟨ino, typeDirIndex, idxOff⟩)
    (hitem : P ⟨ino, typeDirItem, hashDirName name⟩) :
    Always R (insertDirEntry mapBackend indexErr itemErr args ino idxOff name entry) :=
  Always.bind (always_step (h.insert hindex)) fun _ => always_step (h.insert hitem)

theorem cutExtents {newSize : Nat} (hP : ∀ off, P ⟨ino, typeExtentData, off⟩) :
    Always R (cutExtents mapBackend ino newSize) := by
  intro s
  simp only [Btrfs.cutExtents]
  cases hc : mapBackend.collectPrefixItems s ino typeExtentData with
  | error err =>
    dsimp only
    split_ifs <;> exact refl_of R s
  | ok items =>
    refine Always.forM (fun x hx => ?_) s
    obtain ⟨rfl, htyp⟩ := (typ_of_collect hc).2 x hx
    have hkey : P x.1 := by
      rw [show x.1 = ⟨x.1.objID, typeExtentData, x.1.offset⟩ by rw [← htyp]]
      exact hP x.1.offset
    simp only [truncateExtent]
    cases extentLength x.2 with
    | none => exact Always.pure ()
    | some len =>
      dsimp only
      split_ifs
      · exact Always.pure ()
      · exact always_step (h.delete hkey)
      · exact always_step (h.update hkey)

theorem unlinkInodeOnly (hP : ∀ k, DirKey parentIno k ∨ LinkKey ino k → P k) :
    Always R (unlinkInodeOnly mapBackend now ino parentIno name) := by
  have hdir : P ⟨parentIno, typeInodeItem, 0⟩ := hP _ (Or.inl (Or.inr rfl))
  refine Always.bind (h.removeDirIndex fun _ => hP _ (Or.inl (DirKey.of (by decide)))) fun _ => ?_
  refine Always.bind (always_tolerate (h.delete (hP _ (Or.inl (DirKey.of (by decide)))))) fun _ => ?_
  refine Always.bind (always_step (h.removeInodeRef (hP _ (Or.inr (Or.inl ⟨rfl, rfl⟩))))) fun _ => ?_
  refine Always.bind (h.editInode (hP _ (Or.inr (Or.inr rfl)))) fun _ => ?_
  refine Always.bind (always_step (h.adjustDirSize hdir)) fun _ => ?_
  exact Always.bind (always_step (h.touchDir hdir)) fun _ => h.commit

theorem moveEntry {srcFtype newParentIno : Nat} {newName : Name}
    (hP : ∀ k, DirKey parentIno k ∨ DirKey newParentIno k ∨ LinkKey ino k → P k) :
    Always R (moveEntry mapBackend now ino srcFtype parentIno newParentIno name newName) := by
  have hold : ∀ k, DirKey parentIno k → P k := fun k hk => hP k (Or.inl hk)
  have hnew : ∀ k, DirKey newParentIno k → P k := fun k hk => hP k (Or.inr (Or.inl hk))
  have href : ∀ dir, P ⟨ino, typeInodeRef, dir⟩ := fun _ => hP _ (Or.inr (Or.inr (Or.inl ⟨rfl, rfl⟩)))
  refine Always.bind (h.removeDirIndex fun _ => hold _ (DirKey.of (by decide))) fun _ => ?_
  refine Always.bind (always_tolerate (h.delete (hold _ (DirKey.of (by decide))))) fun _ => ?_
  refine Always.bind (always_step (h.removeInodeRef (href _))) fun _ => ?_
  refine Always.bind Always.get fun _ => ?_
  refine Always.bind (h.insertDirEntry (hnew _ (DirKey.of (by decide)))
    (hnew _ (DirKey.of (by decide)))) fun _ => ?_
  refine Always.bind (always_step (h.appendInodeRef (href _))) fun _ => ?_
  refine Always.bind (always_step (h.adjustDirSize (hold _ (Or.inr rfl)))) fun _ => ?_
  refine Always.bind (always_step (h.adjustDirSize (hnew _ (Or.inr rfl)))) fun _ => ?_
  refine Always.bind (always_step (h.touchDir (hold _ (Or.inr rfl)))) fun _ => ?_
  split_ifs
  · exact Always.bind (always_step (h.touchDir (hnew _ (Or.inr rfl)))) fun _ => h.commit
  · exact h.commit

/-- The entry of a new inode, its back-reference, and the edits of the directory. -/
theorem enter {idxOff : Nat} {entry item : Bytes} {e₁ e₂ e₃ e₄ e₅ : String} {args : List ErrArg}
    (hP : ∀ k, Written k → P k) :
    Always R (do
      Btrfs.insertDirEntry mapBackend e₁ e₂ args parentIno idxOff name entry
      step e₃ args (mapBackend.cowInsert ⟨ino, typeInodeRef, parentIno⟩ item)
      step e₄ args (Btrfs.adjustDirSize mapBackend parentIno delta)
      step e₅ args (Btrfs.touchDir mapBackend now parentIno)
      mapBackend.updateFsTreeRoot) := by
  refine Always.bind (h.insertDirEntry (hP _ (Written.of (by decide)))
    (hP _ (Written.of (by decide)))) fun _ => ?_
  refine Always.bind (always_step (h.insert (hP _ (Written.of (by decide))))) fun _ => ?_
  refine Always.bind (always_step (h.adjustDirSize (hP _ Written.inode))) fun _ => ?_
  exact Always.bind (always_step (h.touchDir (hP _ Written.inode))) fun _ => h.commit

/-- A new inode, whatever its body is. -/
theorem createInodeWithDirEntry {data : Bytes} {mode fileType : Nat} {opLabel : String}
    (hP : ∀ k, Written k → P k)
    (hbody : ∀ ino generation, Always R (writeExtents mapBackend ino data generation)) :
    Always R (createInodeWithDirEntry mapBackend now parentIno name data mode fileType opLabel) := by
  refine Always.bind Always.get fun _ => ?_
  refine Always.bind (always_step (h.insert (hP _ Written.inode))) fun _ => ?_
  refine Always.bind (always_step (hbody _ _)) fun _ => ?_
  exact Always.bind Always.get fun _ => h.enter hP

theorem createDir {perm : Nat} (hP : ∀ k, Written k → P k) :
    Always R (createDir mapBackend now parentIno name perm) := by
  refine Always.bind Always.get fun _ => ?_
  refine Always.bind (always_step (h.insert (hP _ Written.inode))) fun _ => ?_
  exact Always.bind Always.get fun _ => h.enter hP

theorem addLink {src : InodeItem} (hP : ∀ k, Written k → P k) :
    Always R (addLink mapBackend now src parentIno name) := by
  refine Always.bind Always.get fun _ => ?_
  refine Always.bind (h.insertDirEntry (hP _ (Written.of (by decide)))
    (hP _ (Written.of (by decide)))) fun _ => ?_
  refine Always.bind (always_step (h.appendInodeRef (hP _ (Written.of (by decide))))) fun _ => ?_
  refine Always.bind (h.editInode (hP _ Written.inode)) fun _ => ?_
  exact Always.bind (always_step (h.adjustDirSize (hP _ Written.inode))) fun _ => h.commit

end steps

/-! ## 4. Steps that allocate or free -/

section space

variable {name : Name} {data : Bytes} {generation : Nat} (hvol : ∀ s v, R s (mapBackend.setVol v s))
include hvol

theorem freeInodeExtents (ino : Nat) :
    Always R (modify (freeInodeExtents mapBackend ino) : FileM MapFs PUnit) := by
  intro s
  change R s (Btrfs.freeInodeExtents mapBackend ino s)
  simp only [Btrfs.freeInodeExtents]
  cases mapBackend.collectPrefixItems s ino typeExtentData with
  | error e => exact refl_of R s
  | ok items =>
    simp only
    induction items.map Prod.snd generalizing s with
    | nil => exact refl_of R s
    | cons d l ih =>
      rw [List.foldl_cons]
      refine trans_of R ?_ (ih (freeExtent mapBackend s d))
      simp only [freeExtent]
      cases extentSpan (mapBackend.sb s) extentDataRegular d with
      | none => exact refl_of R s
      | some x => exact hvol s _

variable (h : Respects R P)
include h

theorem writeChunks {turns off : Nat} (hP : ∀ off, P ⟨ino, typeExtentData, off⟩) :
    Always R (writeChunks mapBackend ino generation turns off data) := by
  induction turns generalizing off data with
  | zero =>
    rw [Btrfs.writeChunks]
    split_ifs
    · exact Always.pure ()
    · exact Always.throw _
  | succ turns ih =>
    rw [Btrfs.writeChunks]
    split_ifs
    · exact Always.pure ()
    refine Always.bind (always_step fun s => ?_) fun _ => Always.bind (fun s => hvol s _) fun _ =>
      Always.bind Always.get fun _ => Always.bind (always_step (h.insert (hP off))) fun _ => ih
    simp only [allocDataBytesUpTo]
    cases (mapBackend.vol s).sm.allocDataBytesUpTo data.length (mapBackend.sb s).sectorSize with
    | error e => exact refl_of R s
    | ok r => exact hvol s _

theorem writeExtents (hP : ∀ off, P ⟨ino, typeExtentData, off⟩) :
    Always R (writeExtents mapBackend ino data generation) := by
  rw [Btrfs.writeExtents]
  split_ifs
  · exact always_step (h.insert (hP 0))
  · exact always_step (h.insert (hP 0))
  · exact always_step (h.insert (hP 0))
  intro s
  simp only [placeData, allocDataBytes]
  cases (mapBackend.vol s).sm.allocDataBytes data.length (mapBackend.sb s).sectorSize with
  | error e => exact writeChunks hvol h hP s
  | ok r => exact trans_of R (trans_of R (hvol s _) (hvol _ _)) (always_step (h.insert (hP 0)) _)

theorem overwriteFile (hP : ∀ k, FileKey ino k → P k) :
    Always R (overwriteFile mapBackend now ino data) := by
  have hbody : ∀ off, P ⟨ino, typeExtentData, off⟩ := fun _ => hP _ (FileKey.of (by decide))
  refine Always.bind Always.get fun _ => Always.bind (freeInodeExtents hvol ino) fun _ => ?_
  refine Always.bind (always_step (h.deletePrefix hbody)) fun _ => ?_
  refine Always.bind (always_step (writeExtents hvol h hbody)) fun _ => ?_
  exact Always.bind (always_ignore (h.editInode (hP _ (Or.inr rfl)))) fun _ => h.commit

theorem dropInode (hP : ∀ k, DirKey parentIno k ∨ FileKey ino k → P k) :
    Always R (dropInode mapBackend now ino parentIno name) := by
  have hdir : ∀ k, DirKey parentIno k → P k := fun k hk => hP k (Or.inl hk)
  have hfile : ∀ k, FileKey ino k → P k := fun k hk => hP k (Or.inr hk)
  refine Always.bind (freeInodeExtents hvol ino) fun _ => ?_
  refine Always.bind (always_step (h.deletePrefix fun _ => hfile _ (FileKey.of (by decide)))) fun _ => ?_
  refine Always.bind (always_tolerate (h.deletePrefix fun _ =>
    hfile _ (FileKey.of (by decide)))) fun _ => ?_
  refine Always.bind (always_tolerate (h.delete (hfile _ (FileKey.of (by decide))))) fun _ => ?_
  refine Always.bind (always_step (h.delete (hfile _ (Or.inr rfl)))) fun _ => ?_
  refine Always.bind (h.removeDirIndex fun _ => hdir _ (DirKey.of (by decide))) fun _ => ?_
  refine Always.bind (always_tolerate (h.delete (hdir _ (DirKey.of (by decide))))) fun _ => ?_
  refine Always.bind (always_step (h.adjustDirSize (hdir _ (Or.inr rfl)))) fun _ => ?_
  exact Always.bind (always_step (h.touchDir (hdir _ (Or.inr rfl)))) fun _ => h.commit

theorem removeInode (hP : ∀ k, DirKey parentIno k ∨ FileKey ino k → P k) :
    Always R (removeInode mapBackend now ino parentIno name) := by
  intro s
  simp only [Btrfs.removeInode]
  split_ifs
  · exact h.unlinkInodeOnly (fun k hk => hP k (hk.imp_right LinkKey.fileKey)) s
  · exact dropInode hvol h hP s

theorem purgeDirContents {depth : Nat} (hP : ∀ k, Written k → P k) :
    Always R (purgeDirContents mapBackend now depth ino) := by
  induction depth generalizing ino with
  | zero => exact Always.throw _
  | succ depth ih =>
    have hremove : ∀ child name, Always R (Btrfs.removeInode mapBackend now child ino name) :=
      fun _ _ => removeInode hvol h fun k hk => hP k (hk.elim DirKey.written FileKey.written)
    refine Always.bind Always.get fun s => Always.forM fun e _ => ?_
    dsimp only
    split_ifs
    · refine Always.bind ih fun _ => Always.bind ?_ fun _ => hremove _ _
      exact always_step (h.deletePrefix fun _ => hP _ (Written.of (by decide)))
    · exact hremove _ _

/-- A call that succeeds, whichever it is. -/
theorem call {c : Call} (hP : ∀ k, Written k → P k) (hrun : c.run mapBackend now s = .ok () s') :
    R s s' := by
  have hmeta : ∀ {i f t}, Btrfs.updateInodeMetadata mapBackend now i f t = .ok () s' → R t s' :=
    fun hedit => (h.updateInodeMetadata (hP _ Written.inode)).of_ok hedit
  have hremove : ∀ {ino parentIno name t t'},
      Btrfs.removeInode mapBackend now ino parentIno name t = .ok () t' → R t t' :=
    fun hrem => (removeInode hvol h fun k hk =>
      hP k (hk.elim DirKey.written FileKey.written)).of_ok hrem
  have hcreate : ∀ {parentIno name data mode ft op},
      Btrfs.createInodeWithDirEntry mapBackend now parentIno name data mode ft op s = .ok () s' → R s s' :=
    fun hcr => (h.createInodeWithDirEntry hP fun _ _ =>
      writeExtents hvol h fun _ => hP _ (Written.of (by decide))).of_ok hcr
  cases c with
  | writeFile p data perm =>
    obtain ⟨parentIno, -, ⟨ino, ft, -, -, hover⟩ | ⟨e, -, hcr⟩⟩ := writeFile_inv rfl hrun
    · exact (overwriteFile hvol h fun k hk => hP k hk.written).of_ok hover
    · exact hcreate hcr
  | makeDir p perm =>
    obtain ⟨parentIno, e, -, -, hcr⟩ := makeDir_inv rfl hrun
    exact (h.createDir hP).of_ok hcr
  | symlink target p =>
    obtain ⟨-, -, parentIno, e, -, -, hcr⟩ := symlinkInode_inv rfl hrun
    exact hcreate hcr
  | link q p =>
    obtain ⟨src, parentIno, e, -, -, -, -, -, hadd⟩ := linkInode_inv rfl hrun
    exact (h.addLink hP).of_ok hadd
  | rename p q =>
    obtain ⟨oldParentIno, ino, ft, newParentIno, s₁, -, -, -, hdst, hmove⟩ :=
      renameEntry_inv rfl rfl hrun
    have hmoved : R s₁ s' := (h.moveEntry fun k hk => hP k (hk.elim DirKey.written fun hk =>
      hk.elim DirKey.written fun hk => hk.fileKey.written)).of_ok hmove
    rcases hdst with ⟨dst, dstFt, -, -, hrem⟩ | ⟨e, -, rfl⟩
    · exact trans_of R (hremove hrem) hmoved
    · exact hmoved
  | deleteFile p =>
    obtain ⟨parentIno, ino, ft, -, -, -, hrem⟩ := deleteFile_inv rfl hrun
    exact hremove hrem
  | deleteDir depth p =>
    obtain ⟨parentIno, ino, -, -, hrest⟩ := deleteDir_inv rfl hrun
    refine Always.of_ok (Always.bind (purgeDirContents hvol h hP) fun _ => ?_) hrest
    refine Always.bind (always_step (h.deletePrefix fun _ => hP _ (Written.of (by decide)))) fun _ => ?_
    exact removeInode hvol h fun k hk => hP k (hk.elim DirKey.written FileKey.written)
  | truncate p newSize =>
    obtain ⟨i, f, s₁, -, -, hcut, -, hedit⟩ := truncateInode_inv hrun
    rcases hcut with rfl | ⟨-, hcut⟩
    · exact hmeta hedit
    · exact trans_of R ((h.cutExtents fun _ => hP _ (Written.of (by decide))).of_ok hcut) (hmeta hedit)
  | setXattr p name value =>
    obtain ⟨i, s₁, -, hset, hedit⟩ := setXattrInode_inv hrun
    refine trans_of R ?_ (hmeta hedit)
    rcases hset with hset | ⟨-, hset⟩
    · exact (h.update (hP _ (Written.of (by decide)))).of_ok hset
    · exact (h.insert (hP _ (Written.of (by decide)))).of_ok hset
  | removeXattr p name =>
    obtain ⟨i, s₁, -, hdel, hedit⟩ := removeXattrInode_inv hrun
    exact trans_of R ((h.delete (hP _ (Written.of (by decide)))).of_ok hdel) (hmeta hedit)
  | chmod | chown | chtimes =>
    obtain ⟨i, -, hedit⟩ := setAttr_inv hrun
    exact hmeta hedit

end space

end Respects

end Btrfs
