/-
  Btrfs/Intact.lean
  =================
  **Intact filesystems** — what every call leaves true of space and file data.

  The extents of the EXTENT_DATA items are apart from each other, from the pool and from
  the superblock; their keys are distinct and belong to inodes that exist.  Most steps of
  a call leave the EXTENT_DATA items alone and only make traffic.  Three kinds of steps
  do not: writing a body, freeing one, and dropping an inode; each gets a triple of its
  own, and the calls are put together from them.
-/
import Btrfs.WriteSpec

namespace Btrfs

open Lib

/-! ## 1. Extents in use -/

def isFileKey (k : Key) : Bool := decide (k.typ = typeExtentData)

/-- The EXTENT_DATA items. -/
def MapFs.files (s : MapFs) : List (Key × Bytes) := s.records.keep isFileKey

/-- The extents are in use: apart from each other, from the pool and from the superblock. -/
structure InUse (s : MapFs) (spans : List Span) : Prop where
  scattered : Scattered spans
  out : Disjoint (bytesOf spans) s.pool
  apart_super : Disjoint (bytesOf spans) superBytes
  usable : bytesOf spans ⊆ usable s.sb

variable {s s' s₁ : MapFs} {spans spans' : List Span} {items : List (Key × Bytes)}

theorem bytesOf_sublist (h : spans'.Sublist spans) : bytesOf spans' ⊆ bytesOf spans := by
  rintro p ⟨e, he, hp⟩
  exact ⟨e, h.subset he, hp⟩

theorem InUse.sublist (h : InUse s spans) (hsub : spans'.Sublist spans) : InUse s spans' :=
  ⟨List.Pairwise.sublist hsub h.scattered, h.out.mono_left (bytesOf_sublist hsub),
    h.apart_super.mono_left (bytesOf_sublist hsub), (bytesOf_sublist hsub).trans h.usable⟩

theorem InUse.perm (h : InUse s spans) (hperm : spans.Perm spans') : InUse s spans' := by
  have heq := bytesOf_perm hperm
  exact ⟨h.scattered.perm hperm, heq ▸ h.out, heq ▸ h.apart_super, heq ▸ h.usable⟩

theorem InUse.churned (h : InUse s spans) (hch : Churned s s') : InUse s' spans := by
  refine ⟨h.scattered, ?_, h.apart_super, ?_⟩
  · rw [hch.pool_eq]
    exact h.out
  · rw [hch.geometry.usable]
    exact h.usable

theorem SpaceOk.pool_usable (hs : SpaceOk s) : s.pool ⊆ usable s.sb :=
  Set.union_subset hs.vol.free_usable hs.nodes_usable

/-- What a body takes out of the pool is in use afterwards. -/
theorem InUse.grown (h : InUse s spans) (hs : SpaceOk s) (hsuper : Disjoint superBytes s.pool)
    (hgrown : Grown s items s') : InUse s' (spans ++ itemSpans s.sb items) := by
  refine ⟨?_, ?_, ?_, ?_⟩
  · rw [scattered_append]
    exact ⟨h.scattered, hgrown.scattered, h.out.mono_right hgrown.taken⟩
  · rw [bytesOf_append, hgrown.pool_eq, Set.disjoint_union_left]
    exact ⟨h.out.mono_right Set.sdiff_subset, Set.disjoint_sdiff_right⟩
  · rw [bytesOf_append, Set.disjoint_union_left]
    exact ⟨h.apart_super, hsuper.symm.mono_left hgrown.taken⟩
  · rw [bytesOf_append, hgrown.geometry.usable]
    exact Set.union_subset h.usable (hgrown.taken.trans hs.pool_usable)

/-- Extents that are freed leave the others in use. -/
theorem InUse.freed (h : InUse s (spans ++ spans')) (hfreed : Freed s spans' s') :
    InUse s' spans := by
  have hrest := h.sublist (List.sublist_append_left spans spans')
  refine ⟨hrest.scattered, ?_, hrest.apart_super, ?_⟩
  · rw [hfreed.pool_eq, Set.disjoint_union_right]
    exact ⟨hrest.out, (scattered_append.mp h.scattered).2.2⟩
  · rw [hfreed.sb_eq]
    exact hrest.usable

/-! ## 2. Intact filesystems -/

/-- The items of the driver's own making: inline, or regular, not compressed, from the start of
    their extent and no longer than it. -/
def ExtentShape (d : Bytes) : Prop :=
  extentType d = some extentDataInline ∨
    (extentType d = some extentDataRegular ∧ extDataRegularSize ≤ d.length ∧
      leAt 1 extDataOffCompression d = compressionNone ∧
      (leAt 8 extDataOffDiskBytenr d ≠ 0 → leAt 8 extDataOffOffset d = 0 ∧
        leAt 8 extDataOffNumBytes d ≤ leAt 8 extDataOffDiskNumBytes d))

def HasInode (r : Records Key Bytes) (ino : Nat) : Prop := (r.find? ⟨ino, typeInodeItem, 0⟩).isSome

/-- An item has a place in a leaf, and an INODE_ITEM is whole. -/
structure ItemOk (sb : Superblock) (e : Key × Bytes) : Prop where
  fits : fitsLeaf sb e.2 = true
  whole : e.1.typ = typeInodeItem → Whole e.2

theorem ItemOk.geometry {sb sb' : Superblock} {e : Key × Bytes} (h : ItemOk sb e)
    (hgeo : SameGeometry sb sb') : ItemOk sb' e :=
  ⟨(hgeo.fitsLeaf _).trans h.fits, h.whole⟩

structure Intact (s : MapFs) : Prop where
  space : SpaceOk s
  super_apart : Disjoint superBytes s.pool
  inUse : InUse s (itemSpans s.sb s.files)
  shape : ∀ e ∈ s.files, ExtentShape e.2
  distinct : s.files.Pairwise fun a b => a.1 ≠ b.1
  owned : ∀ e ∈ s.files, HasInode s.records e.1.objID
  items : ∀ e ∈ s.records.list, ItemOk s.sb e

/-- The change of the records does not concern file data. -/
structure Quiet (r r' : Records Key Bytes) : Prop where
  files : r'.keep isFileKey = r.keep isFileKey
  inodes : ∀ ino, HasInode r ino → HasInode r' ino

theorem Churned.itemSpans (h : Churned s s') (items : List (Key × Bytes)) :
    itemSpans s'.sb items = Btrfs.itemSpans s.sb items := h.geometry.spansOf _

/-- Traffic, and a change of the records that does not concern file data. -/
theorem Intact.quiet (hs : Intact s) (hch : Churned s s') (hquiet : Quiet s.records s'.records)
    (hitems : ∀ e ∈ s'.records.list, ItemOk s'.sb e) : Intact s' := by
  have hfiles : s'.files = s.files := hquiet.files
  refine ⟨hch.ok, ?_, ?_, ?_, ?_, ?_, hitems⟩
  · rw [hch.pool_eq]
    exact hs.super_apart
  · rw [hfiles, hch.itemSpans]
    exact hs.inUse.churned hch
  · rw [hfiles]
    exact hs.shape
  · rw [hfiles]
    exact hs.distinct
  · rw [hfiles]
    exact fun e he => hquiet.inodes _ (hs.owned e he)

/-! ## 3. What a step leaves alone -/

/-- The EXTENT_DATA items of an inode. -/
def MapFs.body (s : MapFs) (ino : Nat) : List (Key × Bytes) :=
  s.records.keep (inPrefix ino typeExtentData)

def MapFs.inodeAt (s : MapFs) (ino : Nat) : Option Bytes :=
  s.records.find? ⟨ino, typeInodeItem, 0⟩

theorem HasInode.of_inodeAt {ino : Nat} (hino : HasInode s.records ino)
    (h : s'.inodeAt ino = s.inodeAt ino) : HasInode s'.records ino := by
  rw [MapFs.inodeAt, MapFs.inodeAt] at h
  rw [HasInode, h]
  exact hino

/-- Every inode outside of `T` keeps its INODE_ITEM, its items and its data. -/
structure Spares (T : Set Nat) (s s' : MapFs) : Prop where
  geometry : SameGeometry s.sb s'.sb
  starved : s.starved = true → s'.starved = true
  body : ∀ ino ∉ T, s'.body ino = s.body ino
  inode : ∀ ino ∉ T, s'.inodeAt ino = s.inodeAt ino
  cells : ∀ ino ∉ T, ∀ p ∈ bytesOf (itemSpans s.sb (s.body ino)), s'.cell p = s.cell p

variable {T : Set Nat}

theorem Spares.refl (s : MapFs) : Spares T s s :=
  ⟨SameGeometry.refl _, id, fun _ _ => rfl, fun _ _ => rfl, fun _ _ _ _ => rfl⟩

theorem Spares.trans (h : Spares T s s₁) (h' : Spares T s₁ s') : Spares T s s' := by
  refine ⟨h.geometry.trans h'.geometry, fun hst => h'.starved (h.starved hst),
    fun ino hino => (h'.body ino hino).trans (h.body ino hino),
    fun ino hino => (h'.inode ino hino).trans (h.inode ino hino), ?_⟩
  intro ino hino p hp
  have hp' : p ∈ bytesOf (itemSpans s₁.sb (s₁.body ino)) := by
    rw [h.body ino hino, itemSpans, h.geometry.spansOf]
    exact hp
  rw [h'.cells ino hino p hp', h.cells ino hino p hp]

theorem Spares.mono {U : Set Nat} (h : Spares T s s') (hsub : T ⊆ U) : Spares U s s' :=
  ⟨h.geometry, h.starved, fun ino hino => h.body ino fun hT => hino (hsub hT),
    fun ino hino => h.inode ino fun hT => hino (hsub hT),
    fun ino hino => h.cells ino fun hT => hino (hsub hT)⟩

/-- The items of an inode are part of the file items. -/
theorem keep_body (r : Records Key Bytes) (ino : Nat) : r.keep (inPrefix ino typeExtentData) =
    (r.keep isFileKey).filter fun e => inPrefix ino typeExtentData e.1 := by
  rw [Records.keep, Records.keep, List.filter_filter]
  refine List.filter_congr ?_
  intro e _
  by_cases hin : inPrefix ino typeExtentData e.1 = true
  · have hfile : isFileKey e.1 = true := by
      rw [inPrefix, decide_eq_true_eq] at hin
      simp [isFileKey, hin.2]
    simp [hin, hfile]
  · simp [hin]

theorem body_sublist_files (s : MapFs) (ino : Nat) : (s.body ino).Sublist s.files := by
  rw [MapFs.body, keep_body]
  exact List.filter_sublist

theorem itemSpans_sublist (sb : Superblock) {l l' : List (Key × Bytes)} (h : l.Sublist l') :
    (itemSpans sb l).Sublist (itemSpans sb l') :=
  (h.map Prod.snd).filterMap _

/-- The data of an inode is in use. -/
theorem Intact.body_inUse (hs : Intact s) (ino : Nat) : InUse s (itemSpans s.sb (s.body ino)) :=
  hs.inUse.sublist (itemSpans_sublist _ (body_sublist_files s ino))

/-- A step that takes an intact filesystem to an intact one and leaves inodes outside of `T` alone. -/
def Steps (T : Set Nat) {α : Type} (x : FileM MapFs α) : Prop :=
  ∀ s a s', Intact s → x s = .ok a s' → Intact s' ∧ Spares T s s'

section rules

variable {α β : Type} {x : FileM MapFs α} {f : α → FileM MapFs β}

theorem Steps.mono {U : Set Nat} (h : Steps T x) (hsub : T ⊆ U) : Steps U x := by
  intro s a s' hs hrun
  obtain ⟨hs', hspares⟩ := h s a s' hs hrun
  exact ⟨hs', hspares.mono hsub⟩

theorem Steps.bind (h : Steps T x) (hf : ∀ a, Steps T (f a)) : Steps T (x >>= f) := by
  intro s b s' hs hrun
  obtain ⟨a, s₁, hx, hrest⟩ := run_bind.mp hrun
  obtain ⟨hs₁, hspares⟩ := h s a s₁ hs hx
  obtain ⟨hs', hspares'⟩ := hf a s₁ b s' hs₁ hrest
  exact ⟨hs', hspares.trans hspares'⟩

theorem Steps.pure (a : α) : Steps T (Pure.pure a : FileM MapFs α) := by
  intro s b s' hs hrun
  obtain ⟨rfl, rfl⟩ := run_pure.mp hrun
  exact ⟨hs, Spares.refl s⟩

theorem Steps.throw (e : Err) : Steps T (MonadExcept.throw e : FileM MapFs α) := by
  intro s b s' hs hrun
  cases run_throw.mp hrun

theorem Steps.get : Steps T (MonadState.get : FileM MapFs MapFs) := by
  intro s b s' hs hrun
  obtain ⟨rfl, rfl⟩ := run_get.mp hrun
  exact ⟨hs, Spares.refl s⟩

theorem Steps.step {format : String} {args : List ErrArg} (h : Steps T x) :
    Steps T (Btrfs.step format args x) :=
  fun s a s' hs hrun => h s a s' hs (run_wrapErr.mp hrun)

end rules

/-! ## 4. Quiet steps -/

theorem quiet_insert {r : Records Key Bytes} {k : Key} (d : Bytes) (hk : isFileKey k = false) :
    Quiet r (r.insert k d) := by
  refine ⟨Records.keep_insert_of_false hk, ?_⟩
  intro ino hino
  by_cases heq : k = ⟨ino, typeInodeItem, 0⟩
  · subst heq
    rw [HasInode, Records.find?_insert_self]
    rfl
  · rw [HasInode, Records.find?_insert_of_ne heq]
    exact hino

theorem quiet_update {r : Records Key Bytes} {k : Key} (d : Bytes) (hk : isFileKey k = false) :
    Quiet r (r.update k d) := by
  refine ⟨Records.keep_update_of_false hk, ?_⟩
  intro ino hino
  by_cases heq : k = ⟨ino, typeInodeItem, 0⟩
  · subst heq
    rw [HasInode, Records.find?_update_self hino]
    rfl
  · rw [HasInode, Records.find?_update_of_ne heq]
    exact hino

theorem ne_inodeKey {k : Key} (hk : k.typ ≠ typeInodeItem) (ino : Nat) :
    k ≠ ⟨ino, typeInodeItem, 0⟩ := by
  rintro rfl
  exact hk rfl

theorem quiet_erase {r : Records Key Bytes} {k : Key} (hk : isFileKey k = false)
    (hinode : k.typ ≠ typeInodeItem) : Quiet r (r.erase k) := by
  refine ⟨Records.keep_erase_of_false hk, ?_⟩
  intro ino hino
  rw [HasInode, Records.find?_erase_of_ne (ne_inodeKey hinode ino)]
  exact hino

theorem quiet_removeAll {r : Records Key Bytes} {objID typ : Nat} (hk : typ ≠ typeExtentData)
    (hinode : typ ≠ typeInodeItem) : Quiet r (r.removeAll (inPrefix objID typ)) := by
  refine ⟨Records.keep_removeAll ?_, ?_⟩
  · intro k hfile
    rw [isFileKey, decide_eq_true_eq] at hfile
    simp only [inPrefix, decide_eq_false_iff_not, not_and]
    exact fun _ htyp => hk (htyp.symm.trans hfile)
  · intro ino hino
    rw [HasInode, Records.find?_removeAll]
    · exact hino
    · simp only [inPrefix, decide_eq_false_iff_not, not_and]
      exact fun _ htyp => hinode htyp.symm

theorem Quiet.body {r r' : Records Key Bytes} (h : Quiet r r') (ino : Nat) :
    r'.keep (inPrefix ino typeExtentData) = r.keep (inPrefix ino typeExtentData) := by
  rw [keep_body r', keep_body r, h.files]

/-- A quiet step: traffic, and a change of records that concerns no INODE_ITEM outside of `T`. -/
theorem Intact.quietStep (hs : Intact s) (hch : Churned s s') (hquiet : Quiet s.records s'.records)
    (hitems : ∀ e ∈ s'.records.list, ItemOk s.sb e)
    (hinode : ∀ ino ∉ T, s'.inodeAt ino = s.inodeAt ino) : Intact s' ∧ Spares T s s' := by
  refine ⟨hs.quiet hch hquiet fun e he => (hitems e he).geometry hch.geometry,
    hch.geometry, hch.starved, fun ino _ => hquiet.body ino, hinode, ?_⟩
  intro ino _ p hp
  have hin := hs.body_inUse ino
  exact hch.cells p (Set.disjoint_left.mp hin.out hp) (Set.disjoint_left.mp hin.apart_super hp)

theorem mapUpdate_ok {k : Key} {d : Bytes} (hs : SpaceOk s) (hrun : mapUpdate k d s = .ok () s') :
    Churned s s' ∧ s'.records = s.records.update k d ∧ fitsLeaf s.sb d = true ∧
      (s.records.find? k).isSome :=
  ⟨(mapOp_ok hs hrun).1, (update_effect hrun).2⟩

theorem mapDelete_ok {k : Key} (hs : SpaceOk s) (hrun : mapDelete k s = .ok () s') :
    Churned s s' ∧ s'.records = s.records.erase k ∧ (s.records.find? k).isSome :=
  ⟨(mapOp_ok hs hrun).1, (delete_effect hrun).2⟩

theorem mapDeletePrefix_ok {objID typ : Nat} (hs : SpaceOk s)
    (hrun : mapDeletePrefix objID typ s = .ok () s') :
    Churned s s' ∧ s'.records = s.records.removeAll (inPrefix objID typ) :=
  ⟨(mapOp_ok hs hrun).1, (deletePrefix_effect hrun).2⟩

/-- An INODE_ITEM outside of `T` has another key than one of an inode in `T`. -/
theorem ne_inodeKey_of_mem {k : Key} (hT : k.typ = typeInodeItem → k.objID ∈ T) {ino : Nat}
    (hino : ino ∉ T) : k ≠ ⟨ino, typeInodeItem, 0⟩ := by
  rintro rfl
  exact hino (hT rfl)

theorem steps_insert {k : Key} {d : Bytes} (hk : isFileKey k = false)
    (hT : k.typ = typeInodeItem → k.objID ∈ T ∧ Whole d) : Steps T (mapBackend.cowInsert k d) := by
  intro s a s' hs hrun
  obtain ⟨hch, hrec, hfit⟩ := mapInsert_ok hs.space hrun
  refine hs.quietStep hch (hrec ▸ quiet_insert d hk) ?_ ?_
  · intro e he
    rw [hrec] at he
    rcases Records.mem_insert.mp he with rfl | he
    · exact ⟨hfit, fun htyp => (hT htyp).2⟩
    · exact hs.items e he
  · intro ino hino
    rw [MapFs.inodeAt, hrec]
    exact Records.find?_insert_of_ne (ne_inodeKey_of_mem (fun htyp => (hT htyp).1) hino)

theorem steps_update {k : Key} {d : Bytes} (hk : isFileKey k = false)
    (hT : k.typ = typeInodeItem → k.objID ∈ T ∧ Whole d) : Steps T (mapBackend.cowUpdate k d) := by
  intro s a s' hs hrun
  obtain ⟨hch, hrec, hfit, -⟩ := mapUpdate_ok hs.space hrun
  refine hs.quietStep hch (hrec ▸ quiet_update d hk) ?_ ?_
  · intro e he
    rw [hrec] at he
    rcases Records.mem_update he with rfl | he
    · exact ⟨hfit, fun htyp => (hT htyp).2⟩
    · exact hs.items e he
  · intro ino hino
    rw [MapFs.inodeAt, hrec]
    exact Records.find?_update_of_ne (ne_inodeKey_of_mem (fun htyp => (hT htyp).1) hino)

theorem steps_delete {k : Key} (hk : isFileKey k = false) (hinode : k.typ ≠ typeInodeItem) :
    Steps T (mapBackend.cowDelete k) := by
  intro s a s' hs hrun
  obtain ⟨hch, hrec, -⟩ := mapDelete_ok hs.space hrun
  refine hs.quietStep hch (hrec ▸ quiet_erase hk hinode) ?_ ?_
  · intro e he
    rw [hrec] at he
    exact hs.items e (Records.mem_erase he)
  · intro ino _
    rw [MapFs.inodeAt, hrec]
    exact Records.find?_erase_of_ne (ne_inodeKey hinode ino)

theorem inPrefix_inodeKey {objID typ : Nat} (hinode : typ ≠ typeInodeItem) (ino : Nat) :
    inPrefix objID typ ⟨ino, typeInodeItem, 0⟩ = false := by
  simp only [inPrefix, decide_eq_false_iff_not, not_and]
  exact fun _ htyp => hinode htyp.symm

theorem steps_deletePrefix {objID typ : Nat} (hk : typ ≠ typeExtentData)
    (hinode : typ ≠ typeInodeItem) : Steps T (mapBackend.cowDeletePrefix objID typ) := by
  intro s a s' hs hrun
  obtain ⟨hch, hrec⟩ := mapDeletePrefix_ok hs.space hrun
  refine hs.quietStep hch (hrec ▸ quiet_removeAll hk hinode) ?_ ?_
  · intro e he
    rw [hrec] at he
    exact hs.items e (Records.mem_removeAll.mp he).1
  · intro ino _
    rw [MapFs.inodeAt, hrec]
    exact Records.find?_removeAll (inPrefix_inodeKey hinode ino)

/-! Keys that are neither EXTENT_DATA nor INODE_ITEM keys concern no inode. -/

section other

variable {objID typ offset : Nat}

theorem steps_insertOther (d : Bytes) (hfile : typ ≠ typeExtentData) (hinode : typ ≠ typeInodeItem) :
    Steps T (mapBackend.cowInsert ⟨objID, typ, offset⟩ d) :=
  steps_insert (decide_eq_false hfile) fun h => absurd h hinode

theorem steps_updateOther (d : Bytes) (hfile : typ ≠ typeExtentData) (hinode : typ ≠ typeInodeItem) :
    Steps T (mapBackend.cowUpdate ⟨objID, typ, offset⟩ d) :=
  steps_update (decide_eq_false hfile) fun h => absurd h hinode

theorem steps_deleteOther (hfile : typ ≠ typeExtentData) (hinode : typ ≠ typeInodeItem) :
    Steps T (mapBackend.cowDelete ⟨objID, typ, offset⟩) :=
  steps_delete (decide_eq_false hfile) hinode

end other

theorem steps_commit : Steps T mapBackend.updateFsTreeRoot := by
  intro s a s' hs hrun
  obtain ⟨hch, hrec, -⟩ := churned_commit hs.space
  have hrun : mapCommit s = .ok a s' := hrun
  rw [hrun, final_ok] at hch hrec
  refine hs.quietStep hch ?_ ?_ ?_
  · exact ⟨by rw [hrec], fun ino h => by rw [hrec]; exact h⟩
  · intro e he
    exact hs.items e (hrec ▸ he)
  · intro ino _
    rw [MapFs.inodeAt, hrec]
    rfl

/-! ## 5. Clearing a body -/

theorem freeInodeExtents_eq (s : MapFs) (ino : Nat) : freeInodeExtents mapBackend ino s =
    ((s.body ino).map Prod.snd).foldl (freeExtent mapBackend) s := by
  simp only [freeInodeExtents, mapBackend, mapCollect, MapFs.body]
  cases s.records.keep (inPrefix ino typeExtentData) <;> rfl

/-- The file items other than those of an inode. -/
def MapFs.otherFiles (s : MapFs) (ino : Nat) : List (Key × Bytes) :=
  s.files.filter fun e => !inPrefix ino typeExtentData e.1

theorem files_perm (s : MapFs) (ino : Nat) :
    (s.otherFiles ino ++ s.body ino).Perm s.files := by
  rw [MapFs.body, keep_body]
  refine List.Perm.trans List.perm_append_comm ?_
  exact List.filter_append_perm _ _

theorem itemSpans_perm (sb : Superblock) {l l' : List (Key × Bytes)} (h : l.Perm l') :
    (itemSpans sb l).Perm (itemSpans sb l') :=
  (h.map Prod.snd).filterMap _

theorem freed_body (hs : Intact s) (ino : Nat) :
    Freed s (itemSpans s.sb (s.body ino)) (freeInodeExtents mapBackend ino s) := by
  have hin := hs.body_inUse ino
  rw [freeInodeExtents_eq]
  refine freed_foldl _ hs.space hin.scattered ?_ ?_
  · intro e he
    exact hin.out.mono_left (bytes_subset_bytesOf he)
  · intro e he
    exact (bytes_subset_bytesOf he).trans hin.usable

theorem files_removeBody {r : Records Key Bytes} (ino : Nat) :
    (r.removeAll (inPrefix ino typeExtentData)).keep isFileKey =
      (r.keep isFileKey).filter fun e => !inPrefix ino typeExtentData e.1 :=
  List.filter_comm _ _ _

theorem inPrefix_disjoint {ino ino' : Nat} (hne : ino' ≠ ino) (k : Key)
    (h : inPrefix ino' typeExtentData k = true) : inPrefix ino typeExtentData k = false := by
  rw [inPrefix, decide_eq_true_eq] at h
  simp only [inPrefix, decide_eq_false_iff_not, not_and]
  exact fun heq => absurd (h.1.symm.trans heq) hne

/-- Free the extents of an inode and delete its EXTENT_DATA items. -/
theorem clearBody_ok {ino : Nat} (hs : Intact s)
    (hrun : mapBackend.cowDeletePrefix ino typeExtentData (freeInodeExtents mapBackend ino s) =
      .ok () s') :
    Intact s' ∧ Spares {ino} s s' ∧ s'.body ino = [] ∧
      s'.records = s.records.removeAll (inPrefix ino typeExtentData) := by
  have hfreed := freed_body hs ino
  obtain ⟨hch, hrec⟩ := mapDeletePrefix_ok hfreed.ok hrun
  rw [hfreed.records_eq] at hrec
  have hfiles : s'.files = s.otherFiles ino := by
    rw [MapFs.files, hrec, files_removeBody]
    rfl
  have hsub : (s.otherFiles ino).Sublist s.files := List.filter_sublist
  have hgeo : SameGeometry s.sb s'.sb := by
    rw [← hfreed.sb_eq]
    exact hch.geometry
  -- what is left of the file items is in use after the extents of the inode are freed
  have hleft : InUse s' (itemSpans s.sb (s.otherFiles ino)) := by
    have hall := hs.inUse.perm (itemSpans_perm s.sb (files_perm s ino)).symm
    rw [itemSpans_append] at hall
    exact (hall.freed hfreed).churned hch
  have hinode : ∀ i, s'.inodeAt i = s.inodeAt i := by
    intro i
    rw [MapFs.inodeAt, hrec]
    exact Records.find?_removeAll (inPrefix_inodeKey (by decide) i)
  refine ⟨⟨hch.ok, ?_, ?_, ?_, ?_, ?_, ?_⟩, ⟨hgeo, ?_, ?_, fun i _ => hinode i, ?_⟩, ?_, hrec⟩
  · rw [hch.pool_eq, hfreed.pool_eq, Set.disjoint_union_right]
    exact ⟨hs.super_apart, (hs.body_inUse ino).apart_super.symm⟩
  · rw [hfiles, itemSpans, hgeo.spansOf]
    exact hleft
  · rw [hfiles]
    exact fun e he => hs.shape e (hsub.subset he)
  · rw [hfiles]
    exact hs.distinct.sublist hsub
  · rw [hfiles]
    exact fun e he => (hs.owned e (hsub.subset he)).of_inodeAt (hinode _)
  · intro e he
    rw [hrec] at he
    exact (hs.items e (Records.mem_removeAll.mp he).1).geometry hgeo
  · exact fun hst => hch.starved (hfreed.starved_eq ▸ hst)
  · intro i hi
    rw [MapFs.body, hrec]
    exact Records.keep_removeAll (inPrefix_disjoint hi)
  · intro i hi p hp
    have hmem : p ∈ bytesOf (itemSpans s.sb (s.otherFiles ino)) := by
      refine bytesOf_sublist (itemSpans_sublist s.sb ?_) hp
      rw [MapFs.body, keep_body, MapFs.otherFiles]
      refine List.monotone_filter_right _ ?_
      intro e he
      rw [inPrefix_disjoint hi e.1 he]
      rfl
    rw [hch.cells p ?_ (Set.disjoint_left.mp hleft.apart_super hmem), hfreed.cells p]
    rw [← hch.pool_eq]
    exact Set.disjoint_left.mp hleft.out hmem
  · rw [MapFs.body, hrec]
    exact Records.keep_removeAll_self

/-! ## 6. Writing a body -/

theorem Piece.shape {sb : Superblock} {dev : Device} {d chunk : Bytes} (h : Piece sb dev d chunk) :
    ExtentShape d := by
  cases h with
  | stored generation => exact Or.inl (extentType_encodeExtentDataInline generation chunk)
  | hole generation n =>
    refine Or.inr ⟨extentType_encodeExtentData .., (length_encodeExtentData ..).ge,
      compression_encodeExtentData .., ?_⟩
    intro hne
    exact absurd (diskBytenr_encodeExtentData 0 0 n generation 0 (by decide)) hne
  | placed generation hne hlt hle hmax =>
    refine Or.inr ⟨extentType_encodeExtentData .., (length_encodeExtentData ..).ge,
      compression_encodeExtentData .., fun _ => ⟨offset_encodeExtentData _ _ _ _ _ (by decide), ?_⟩⟩
    rw [numBytes_encodeExtentData _ _ _ _ _ (by omega),
      diskNumBytes_encodeExtentData _ _ _ _ _ (by omega)]
    exact hle

theorem isFileKey_of_inPrefix {ino : Nat} {k : Key} (h : inPrefix ino typeExtentData k = true) :
    isFileKey k = true := by
  rw [inPrefix, decide_eq_true_eq] at h
  simp [isFileKey, h.2]

/-- Write the body of an inode that has none. -/
theorem writeBody_ok {ino generation : Nat} {data : Bytes} (hs : Intact s)
    (hino : HasInode s.records ino) (hbody : s.body ino = [])
    (hrun : writeExtents mapBackend ino data generation s = .ok () s') :
    Intact s' ∧ Spares {ino} s s' ∧
      Layout s'.sb s'.vol.dev ino (s'.body ino) data ∧
      (∃ items, s'.records = s.records.insertAll items ∧
        ∀ e ∈ items, inPrefix ino typeExtentData e.1 = true) := by
  obtain ⟨items, hgrown, hkeys, hpieces, hlaid⟩ := writeExtents_ok hs.space hs.super_apart hrun
  have hrec := hgrown.records_eq
  have hfile : ∀ e ∈ items, isFileKey e.1 = true :=
    fun e he => isFileKey_of_inPrefix (hkeys.inode e he)
  have hperm : s'.files.Perm (items ++ s.files) := by
    rw [MapFs.files, hrec]
    exact Records.keep_insertAll_perm hfile
  have hinode : ∀ i, s'.inodeAt i = s.inodeAt i := by
    intro i
    rw [MapFs.inodeAt, hrec]
    refine Records.find?_insertAll_of_ne ?_
    intro e he heq
    have hk := hkeys.inode e he
    rw [heq, inPrefix_inodeKey (by decide)] at hk
    cases hk
  have hnew : s'.body ino = items := by
    rw [MapFs.body, hrec, Records.keep_insertAll hkeys.inode hkeys.ordered]
    · rw [MapFs.body] at hbody
      rw [hbody, List.nil_append]
    · intro e he
      rw [MapFs.body] at hbody
      rw [hbody] at he
      cases he
  -- the inode had no item, so that the new keys are new
  have hfresh : ∀ e ∈ s.files, ∀ e' ∈ items, e'.1 ≠ e.1 := by
    intro e he e' he' heq
    have hmem : e ∈ s.body ino := by
      rw [MapFs.body, keep_body, List.mem_filter]
      exact ⟨he, heq ▸ hkeys.inode e' he'⟩
    rw [hbody] at hmem
    cases hmem
  refine ⟨⟨hgrown.ok, ?_, ?_, ?_, ?_, ?_, ?_⟩, ⟨hgrown.geometry, hgrown.starved, ?_,
    fun i _ => hinode i, ?_⟩, hnew.symm ▸ hlaid, items, hrec, hkeys.inode⟩
  · rw [hgrown.pool_eq]
    exact hs.super_apart.mono_right Set.sdiff_subset
  · have hin := hs.inUse.grown hs.space hs.super_apart hgrown
    rw [← itemSpans_append] at hin
    refine InUse.perm ?_ (itemSpans_perm s'.sb (hperm.trans List.perm_append_comm)).symm
    rw [itemSpans, hgrown.geometry.spansOf]
    exact hin
  · intro e he
    rcases List.mem_append.mp (hperm.mem_iff.mp he) with he | he
    · obtain ⟨chunk, hpiece⟩ := hpieces e he
      exact hpiece.shape
    · exact hs.shape e he
  · refine hperm.symm.pairwise ?_ fun h => Ne.symm h
    rw [List.pairwise_append]
    exact ⟨hkeys.ordered.imp fun h => h.ne, hs.distinct, fun e he e' he' => hfresh e' he' e he⟩
  · intro e he
    rcases List.mem_append.mp (hperm.mem_iff.mp he) with he | he
    · have hk := hkeys.inode e he
      rw [inPrefix, decide_eq_true_eq] at hk
      rw [hk.1]
      exact hino.of_inodeAt (hinode ino)
    · exact (hs.owned e he).of_inodeAt (hinode _)
  · intro e he
    rw [hrec, Records.mem_insertAll] at he
    refine ItemOk.geometry ?_ hgrown.geometry
    rcases he with he | he
    · refine ⟨hgrown.fits e he, fun htyp => absurd htyp ?_⟩
      have hk := hkeys.inode e he
      rw [inPrefix, decide_eq_true_eq] at hk
      rw [hk.2]
      decide
    · exact hs.items e he
  · intro i hi
    rw [MapFs.body, hrec]
    refine Records.keep_insertAll_of_false fun e he => ?_
    have hk := hkeys.inode e he
    rw [inPrefix, decide_eq_true_eq] at hk
    simp only [inPrefix, decide_eq_false_iff_not, not_and]
    exact fun heq => absurd (heq.symm.trans hk.1) hi
  · intro i _ p hp
    have hin := hs.body_inUse i
    exact hgrown.cells p (Set.disjoint_left.mp hin.out hp) (Set.disjoint_left.mp hin.apart_super hp)

/-! ## 7. Dropping an inode -/

theorem body_eq_nil_iff {ino : Nat} : s.body ino = [] ↔ ∀ e ∈ s.files, e.1.objID ≠ ino := by
  rw [MapFs.body, keep_body, List.filter_eq_nil_iff]
  refine forall₂_congr fun e he => ?_
  have hfile : isFileKey e.1 = true := (List.mem_filter.mp he).2
  rw [isFileKey, decide_eq_true_eq] at hfile
  simp [inPrefix, hfile]

/-- Delete the INODE_ITEM of an inode that has no body. -/
theorem dropInodeItem_ok {ino : Nat} (hs : Intact s) (hbody : s.body ino = [])
    (hrun : mapBackend.cowDelete ⟨ino, typeInodeItem, 0⟩ s = .ok () s') :
    Intact s' ∧ Spares {ino} s s' ∧ s'.records = s.records.erase ⟨ino, typeInodeItem, 0⟩ := by
  obtain ⟨hch, hrec, -⟩ := mapDelete_ok hs.space hrun
  have hfiles : s'.files = s.files := by
    rw [MapFs.files, hrec]
    exact Records.keep_erase_of_false rfl
  have hinode : ∀ i, i ≠ ino → s'.inodeAt i = s.inodeAt i := by
    intro i hi
    rw [MapFs.inodeAt, hrec]
    refine Records.find?_erase_of_ne ?_
    intro heq
    exact hi (congrArg Key.objID heq).symm
  refine ⟨⟨hch.ok, ?_, ?_, ?_, ?_, ?_, ?_⟩, ⟨hch.geometry, hch.starved, ?_, hinode, ?_⟩, hrec⟩
  · rw [hch.pool_eq]
    exact hs.super_apart
  · rw [hfiles, hch.itemSpans]
    exact hs.inUse.churned hch
  · exact hfiles ▸ hs.shape
  · exact hfiles ▸ hs.distinct
  · rw [hfiles]
    intro e he
    exact (hs.owned e he).of_inodeAt (hinode _ (body_eq_nil_iff.mp hbody e he))
  · intro e he
    rw [hrec] at he
    exact (hs.items e (Records.mem_erase he)).geometry hch.geometry
  · intro i _
    rw [MapFs.body, hrec]
    exact Records.keep_erase_of_false (by simp [inPrefix, typeExtentData, typeInodeItem])
  · intro i _ p hp
    have hin := hs.body_inUse i
    exact hch.cells p (Set.disjoint_left.mp hin.out hp) (Set.disjoint_left.mp hin.apart_super hp)

end Btrfs
