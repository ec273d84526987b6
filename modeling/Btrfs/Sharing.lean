/-
  Btrfs/Sharing.lean
  ==================
  **Shared extents** — what removing a file frees when items share extents.

  The driver keeps no reference counts: it frees the extent of every regular item of the
  file, as often as items name it.  That is right for a file whose extents are its own,
  and the other items may share theirs in any way.
-/
import Btrfs.Calm
import Btrfs.WriteRead

namespace Btrfs

open Lib

variable {s s' s₁ : MapFs} {ino parentIno : Nat} {now : Timespec}

/-! ## 1. Steps that leave EXTENT_DATA items alone -/

/-- Traffic, and changes of records other than EXTENT_DATA items. -/
abbrev CalmFiles : MapFs → MapFs → Prop := Calm [typeExtentData]

theorem CalmFiles.files (h : CalmFiles s s') : s'.files = s.files := by
  have hkey : (fun k : Key => decide (k.typ ∈ [typeExtentData])) = isFileKey := by
    funext k
    simp [isFileKey]
  have hkept := h.kept
  rw [MapFs.ofTypes, MapFs.ofTypes, hkey] at hkept
  exact hkept

theorem DirKey.other {dir : Nat} {k : Key} (h : DirKey dir k) : Other [typeExtentData] k := by
  rcases h with ⟨-, htyp⟩ | rfl
  · have hall : ∀ t ∈ [typeDirIndex, typeDirItem], t ∉ [typeExtentData] := by decide
    exact hall _ htyp
  · exact Other.of (by decide)

theorem LinkKey.other {k : Key} (h : LinkKey ino k) : Other [typeExtentData] k := by
  rcases h with ⟨-, htyp⟩ | rfl
  · rw [Other, htyp]
    decide
  · exact Other.of (by decide)

theorem calm_unlinkInodeOnly {name : Name} :
    Always CalmFiles (unlinkInodeOnly mapBackend now ino parentIno name) :=
  respects_calm.unlinkInodeOnly fun _ hk => hk.elim DirKey.other LinkKey.other

theorem calm_moveEntry {srcObjID srcFtype oldParentIno newParentIno : Nat} {oldName newName : Name} :
    Always CalmFiles (moveEntry mapBackend now srcObjID srcFtype oldParentIno newParentIno oldName
      newName) :=
  respects_calm.moveEntry fun _ hk => hk.elim DirKey.other fun hk => hk.elim DirKey.other LinkKey.other

/-! ## 2. Extents that items refer to -/

/-- The extent an EXTENT_DATA item refers to, written or preallocated. -/
def heldSpan (sb : Superblock) (d : Bytes) : Option Span :=
  (extentSpan sb extentDataRegular d).or (extentSpan sb extentDataPrealloc d)

/-- The bytes on the device that some items refer to. -/
def heldBytes (sb : Superblock) (items : List (Key × Bytes)) : Set Nat :=
  bytesOf (items.filterMap fun e => heldSpan sb e.2)

/-- A filesystem in order, but for the sharing of extents: the free list and the node blocks are
    disjoint ranges, and no byte of them is referred to by an item. -/
structure Referenced (s : MapFs) : Prop where
  space : SpaceOk s
  super_apart : Disjoint superBytes s.pool
  out : Disjoint (heldBytes s.sb s.files) s.pool
  apart_super : Disjoint (heldBytes s.sb s.files) superBytes
  usable : heldBytes s.sb s.files ⊆ usable s.sb

/-- The extents of a file are its own: no two of its items share a byte, and it shares none with
    the items of other files. -/
structure SoleOwner (s : MapFs) (ino : Nat) : Prop where
  scattered : Scattered (itemSpans s.sb (s.body ino))
  apart : Disjoint (bytesOf (itemSpans s.sb (s.body ino))) (heldBytes s.sb (s.otherFiles ino))

theorem SameGeometry.heldBytes {sb sb' : Superblock} (h : SameGeometry sb sb')
    (items : List (Key × Bytes)) : Btrfs.heldBytes sb' items = Btrfs.heldBytes sb items := by
  have hspan : heldSpan sb' = heldSpan sb := by
    funext d
    rw [heldSpan, heldSpan, h.extentSpan, h.extentSpan]
  rw [Btrfs.heldBytes, Btrfs.heldBytes, hspan]

theorem heldBytes_mono {sb : Superblock} {l l' : List (Key × Bytes)} (h : l ⊆ l') :
    heldBytes sb l ⊆ heldBytes sb l' := by
  rintro p ⟨e, he, hp⟩
  obtain ⟨x, hx, hspan⟩ := List.mem_filterMap.mp he
  exact ⟨e, List.mem_filterMap.mpr ⟨x, h hx, hspan⟩, hp⟩

/-- What the driver frees for an item is what the item refers to. -/
theorem itemSpans_subset_held {sb : Superblock} (l : List (Key × Bytes)) :
    bytesOf (itemSpans sb l) ⊆ heldBytes sb l := by
  rintro p ⟨e, he, hp⟩
  rw [itemSpans, spansOf, List.mem_filterMap] at he
  obtain ⟨d, hd, hspan⟩ := he
  obtain ⟨x, hx, rfl⟩ := List.mem_map.mp hd
  refine ⟨e, List.mem_filterMap.mpr ⟨x, hx, ?_⟩, hp⟩
  rw [heldSpan, hspan, Option.some_or]

/-- The driver writes no preallocated extents. -/
theorem heldSpan_of_shape {sb : Superblock} {d : Bytes} (h : ExtentShape d) :
    heldSpan sb d = extentSpan sb extentDataRegular d := by
  have hne : extentType d ≠ some extentDataPrealloc := by
    rcases h with h | ⟨h, -⟩
    · rw [h]
      decide
    · rw [h]
      decide
  have hnone : extentSpan sb extentDataPrealloc d = none := by rw [extentSpan, if_pos hne]
  rw [heldSpan, hnone, Option.or_none]

theorem Referenced.calm (hs : Referenced s) (h : CalmFiles s s') : Referenced s' := by
  have hch := h.churned hs.space
  refine ⟨hch.ok, ?_, ?_, ?_, ?_⟩
  · rw [hch.pool_eq]
    exact hs.super_apart
  · rw [h.files, hch.geometry.heldBytes, hch.pool_eq]
    exact hs.out
  · rw [h.files, hch.geometry.heldBytes]
    exact hs.apart_super
  · rw [h.files, hch.geometry.heldBytes, hch.geometry.usable]
    exact hs.usable

/-- Free the extents of a file that are its own, and delete its items. -/
theorem Referenced.clearBody (hs : Referenced s) (hown : SoleOwner s ino)
    (hrun : mapBackend.cowDeletePrefix ino typeExtentData (freeInodeExtents mapBackend ino s) =
      .ok () s') : Referenced s' := by
  have hbody : bytesOf (itemSpans s.sb (s.body ino)) ⊆ heldBytes s.sb s.files :=
    (itemSpans_subset_held _).trans (heldBytes_mono (body_sublist_files s ino).subset)
  have hfreed : Freed s (itemSpans s.sb (s.body ino)) (freeInodeExtents mapBackend ino s) := by
    rw [freeInodeExtents_eq]
    refine freed_foldl _ hs.space hown.scattered ?_ ?_
    · exact fun e he => hs.out.mono_left ((bytes_subset_bytesOf he).trans hbody)
    · exact fun e he => ((bytes_subset_bytesOf he).trans hbody).trans hs.usable
  obtain ⟨hch, hrec⟩ := mapDeletePrefix_ok hfreed.ok hrun
  rw [hfreed.records_eq] at hrec
  have hfiles : s'.files = s.otherFiles ino := by
    rw [MapFs.files, hrec, files_removeBody]
    rfl
  have hgeo : SameGeometry s.sb s'.sb := by
    rw [← hfreed.sb_eq]
    exact hch.geometry
  have hpool : s'.pool = s.pool ∪ bytesOf (itemSpans s.sb (s.body ino)) :=
    hch.pool_eq.trans hfreed.pool_eq
  have hleft : heldBytes s'.sb s'.files ⊆ heldBytes s.sb s.files := by
    rw [hfiles, hgeo.heldBytes]
    exact heldBytes_mono List.filter_sublist.subset
  refine ⟨hch.ok, ?_, ?_, hs.apart_super.mono_left hleft, ?_⟩
  · rw [hpool, Set.disjoint_union_right]
    exact ⟨hs.super_apart, (hs.apart_super.mono_left hbody).symm⟩
  · rw [hpool, Set.disjoint_union_right]
    refine ⟨hs.out.mono_left hleft, ?_⟩
    rw [hfiles, hgeo.heldBytes]
    exact hown.apart.symm
  · rw [hgeo.usable]
    exact hleft.trans hs.usable

/-- The extents of a new body come out of the pool. -/
theorem Referenced.writeBody {data : Bytes} {generation : Nat} (hs : Referenced s)
    (hrun : writeExtents mapBackend ino data generation s = .ok () s') : Referenced s' := by
  obtain ⟨items, hgrown, hkeys, hpieces, -⟩ := writeExtents_ok hs.space hs.super_apart hrun
  have hgeo := hgrown.geometry
  have hfile : ∀ e ∈ items, isFileKey e.1 = true :=
    fun e he => isFileKey_of_inPrefix (hkeys.inode e he)
  have hperm : s'.files.Perm (items ++ s.files) := by
    rw [MapFs.files, hgrown.records_eq]
    exact Records.keep_insertAll_perm hfile
  have hheld : heldBytes s'.sb s'.files ⊆
      bytesOf (itemSpans s.sb items) ∪ heldBytes s.sb s.files := by
    rw [hgeo.heldBytes]
    rintro p ⟨e, he, hp⟩
    obtain ⟨x, hx, hspan⟩ := List.mem_filterMap.mp he
    rcases List.mem_append.mp (hperm.mem_iff.mp hx) with hx | hx
    · obtain ⟨chunk, hpiece⟩ := hpieces x hx
      rw [heldSpan_of_shape hpiece.shape] at hspan
      exact Or.inl ⟨e, List.mem_filterMap.mpr ⟨x.2, List.mem_map_of_mem hx, hspan⟩, hp⟩
    · exact Or.inr ⟨e, List.mem_filterMap.mpr ⟨x, hx, hspan⟩, hp⟩
  have hnew := hgrown.taken
  refine ⟨hgrown.ok, ?_, ?_, ?_, ?_⟩
  · rw [hgrown.pool_eq]
    exact hs.super_apart.mono_right Set.sdiff_subset
  · refine Disjoint.mono_left hheld ?_
    rw [hgrown.pool_eq, Set.disjoint_union_left]
    exact ⟨Set.disjoint_sdiff_right, hs.out.mono_right Set.sdiff_subset⟩
  · refine Disjoint.mono_left hheld ?_
    rw [Set.disjoint_union_left]
    exact ⟨hs.super_apart.symm.mono_left hnew, hs.apart_super⟩
  · rw [hgeo.usable]
    refine hheld.trans (Set.union_subset ?_ hs.usable)
    exact hnew.trans hs.space.pool_usable

/-! ## 3. Removing a file -/

theorem Referenced.dropInode {name : Name} (hs : Referenced s) (hown : SoleOwner s ino)
    (hrun : dropInode mapBackend now ino parentIno name s = .ok () s') : Referenced s' := by
  obtain ⟨_, s₁, hfree, hrun₁⟩ := run_bind.mp hrun
  obtain rfl := run_modify.mp hfree
  obtain ⟨_, s₂, hclear, hrun₂⟩ := run_bind.mp hrun₁
  refine (hs.clearBody hown (run_wrapErr.mp hclear)).calm (Always.of_ok ?_ hrun₂)
  refine Always.bind (always_tolerate (respects_calm.deletePrefix fun _ => Other.of (by decide))) fun _ => ?_
  refine Always.bind (always_tolerate (respects_calm.delete (Other.of (by decide)))) fun _ => ?_
  refine Always.bind (always_step (respects_calm.delete (Other.of (by decide)))) fun _ => ?_
  refine Always.bind (respects_calm.removeDirIndex fun _ => Other.of (by decide)) fun _ => ?_
  refine Always.bind (always_tolerate (respects_calm.delete (Other.of (by decide)))) fun _ => ?_
  refine Always.bind (always_step (respects_calm.adjustDirSize (Other.of (by decide)))) fun _ => ?_
  exact Always.bind (always_step (respects_calm.editInode (Other.of (by decide)))) fun _ => calm_commit

theorem Referenced.removeInode {name : Name} (hs : Referenced s) (hown : SoleOwner s ino)
    (hrun : removeInode mapBackend now ino parentIno name s = .ok () s') : Referenced s' := by
  rcases removeInode_inv hrun with ⟨-, hunlink⟩ | ⟨-, hdrop⟩
  · exact hs.calm (calm_unlinkInodeOnly.of_ok hunlink)
  · exact hs.dropInode hown hdrop

theorem Referenced.overwriteFile {data : Bytes} (hs : Referenced s) (hown : SoleOwner s ino)
    (hrun : overwriteFile mapBackend now ino data s = .ok () s') : Referenced s' := by
  obtain ⟨s₂, s₃, hclear, hwrite, hcommit⟩ := overwriteFile_inv hrun
  have hs₃ := (hs.clearBody hown hclear).writeBody hwrite
  exact (hs₃.calm (respects_calm.editInode (Other.of (by decide)) s₃)).calm (calm_commit.of_ok hcommit)

/-- The path whose file a call removes or replaces. -/
def Call.replaced : Call → Option Path
  | .deleteFile p => some p
  | .writeFile p _ _ => some p
  | .rename _ newPath => some newPath
  | _ => none

/-- The file a call removes or replaces, if there is one, shares no extent. -/
def OwnsExtents (c : Call) (s : MapFs) : Prop :=
  ∀ p, c.replaced = some p → ∀ parentIno ino ft,
    pathLookupIno mapBackend s (splitPath p).1 = .ok parentIno →
    lookupDirEntry mapBackend s parentIno (splitPath p).2 = .ok (ino, ft) → SoleOwner s ino

theorem Referenced.createInode {name : Name} {data : Bytes} {mode fileType : Nat} {opLabel : String}
    (hs : Referenced s)
    (hrun : createInodeWithDirEntry mapBackend now parentIno name data mode fileType opLabel s =
      .ok () s') : Referenced s' := by
  have hrun₁ := run_get_bind.mp hrun
  obtain ⟨_, s₁, hinsert, hrun₂⟩ := run_bind.mp hrun₁
  obtain ⟨_, s₂, hwrite, hrun₃⟩ := run_bind.mp hrun₂
  have hs₁ := hs.calm ((respects_calm.insert (Other.of (by decide))).of_ok (run_wrapErr.mp hinsert))
  refine (hs₁.writeBody (run_wrapErr.mp hwrite)).calm (Always.of_ok ?_ hrun₃)
  refine Always.bind Always.get fun _ => Always.bind (respects_calm.insertDirEntry (Other.of (by decide))
    (Other.of (by decide))) fun _ => ?_
  refine Always.bind (always_step (respects_calm.insert (Other.of (by decide)))) fun _ => ?_
  refine Always.bind (always_step (respects_calm.adjustDirSize (Other.of (by decide)))) fun _ => ?_
  exact Always.bind (always_step (respects_calm.editInode (Other.of (by decide)))) fun _ => calm_commit

theorem Referenced.scripted (hs : Referenced s) (script : List (List NodeEvent)) :
    Referenced (s.scripted script) := by
  have hsp := hs.space
  exact ⟨⟨hsp.geometry, hsp.vol, hsp.apart, hsp.free_nodes, hsp.nodes_usable⟩, hs.super_apart,
    hs.out, hs.apart_super, hs.usable⟩

/-- `DeleteFile`, `WriteFile` and `Rename` keep every extent that is referred to out of the free
    list, if the file they remove or replace owns its extents. -/
theorem Referenced.call {c : Call} {script : List (List NodeEvent)} (hs : Referenced s)
    (hc : c.replaced.isSome = true) (hown : OwnsExtents c s)
    (hrun : c.run mapBackend now (s.scripted script) = .ok () s') : Referenced s' := by
  have hrec : (s.scripted script).records = s.records := rfl
  have hsole : ∀ ino, SoleOwner s ino → SoleOwner (s.scripted script) ino :=
    fun ino h => ⟨h.scattered, h.apart⟩
  replace hs := hs.scripted script
  cases c with
  | writeFile p data perm =>
    obtain ⟨parentIno, hparent, hcase⟩ := writeFile_inv rfl hrun
    rcases hcase with ⟨ino, ft, hlook, -, hover⟩ | ⟨e, -, hcreate⟩
    · refine hs.overwriteFile (hsole _ (hown p rfl parentIno ino ft ?_ ?_)) hover
      · exact (pathLookupIno_records hrec _).symm.trans hparent
      · exact (lookupDirEntry_records hrec _ _).symm.trans hlook
    · exact hs.createInode hcreate
  | deleteFile p =>
    obtain ⟨parentIno, ino, ft, hparent, hlook, -, hremove⟩ := deleteFile_inv rfl hrun
    refine hs.removeInode (hsole _ (hown p rfl parentIno ino ft ?_ ?_)) hremove
    · exact (pathLookupIno_records hrec _).symm.trans hparent
    · exact (lookupDirEntry_records hrec _ _).symm.trans hlook
  | rename oldPath newPath =>
    obtain ⟨oldParent, ino, ft, newParent, s₁, -, -, hparent, hdst, hmove⟩ :=
      renameEntry_inv rfl rfl hrun
    have hs₁ : Referenced s₁ := by
      rcases hdst with ⟨dst, dstFt, hlook, -, hremove⟩ | ⟨e, -, rfl⟩
      · refine hs.removeInode (hsole _ (hown newPath rfl newParent dst dstFt ?_ ?_)) hremove
        · exact (pathLookupIno_records hrec _).symm.trans hparent
        · exact (lookupDirEntry_records hrec _ _).symm.trans hlook
      · exact hs
    exact hs₁.calm (calm_moveEntry.of_ok hmove)
  | makeDir | symlink | link | deleteDir | truncate | setXattr | removeXattr | chmod | chown
  | chtimes => cases hc

end Btrfs
