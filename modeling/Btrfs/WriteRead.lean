/-
  Btrfs/WriteRead.lean
  ====================
  **`WriteFile`, then `ReadFile`** — the bytes come back, whatever shape they were stored
  in and whatever the traffic of the trees.

  The body is laid out outside the pool and survives the rest of the call.  What remains
  is to find it again: the path leads to the same inode as before, or to the new one, and
  the inode carries the size of the data.  An entry whose inode is gone is where this
  breaks: the call writes a body that no inode owns, drops the failed edit of the inode and
  reports success.
-/
import Btrfs.Runs

namespace Btrfs

open Lib

variable {s s' s₁ : MapFs} {now : Timespec} {ino : Nat} {data : Bytes}

/-! ## 1. Bodies that stay -/

/-- A body that is laid out is what the inode reads as, with zeros up to its size. -/
theorem readFileData_body (codec : Codec) {i : InodeItem} (hnum : i.num = ino)
    (hle : data.length ≤ i.size) (hsize : i.size ≤ hardSizeCeiling)
    (hlay : Layout s.sb s.vol.dev ino (s.body ino) data) :
    readFileData mapBackend codec s i = .ok (data ++ zeros (i.size - data.length)) := by
  subst hnum
  exact readFileData_layout codec hlay hle hsize (collect_body hlay.items_ne_nil)

theorem readFileData_whole (codec : Codec) {i : InodeItem} (hnum : i.num = ino)
    (hi : i.size = data.length) (hlen : data.length ≤ hardSizeCeiling)
    (hlay : Layout s.sb s.vol.dev ino (s.body ino) data) :
    readFileData mapBackend codec s i = .ok data := by
  rw [readFileData_body codec hnum hi.ge (hi.trans_le hlen) hlay, hi, Nat.sub_self, zeros,
    List.replicate_zero, List.append_nil]

theorem mem_itemSpans {sb : Superblock} {items : List (Key × Bytes)} {e : Key × Bytes} {x : Span}
    (he : e ∈ items) (hx : extentSpan sb extentDataRegular e.2 = some x) :
    x ∈ itemSpans sb items :=
  List.mem_filterMap.mpr ⟨e.2, List.mem_map_of_mem he, hx⟩

theorem Intact.layout_churned (hs : Intact s) (hch : Churned s s')
    (hlay : Layout s.sb s.vol.dev ino (s.body ino) data) :
    Layout s'.sb s'.vol.dev ino (s.body ino) data := by
  refine hlay.mono (fun a => hch.geometry.physAddr a) ?_
  intro e he x hx p hp
  have hin := hs.body_inUse ino
  have hmem : p ∈ bytesOf (itemSpans s.sb (s.body ino)) := ⟨x, mem_itemSpans he hx, hp⟩
  exact hch.cells p (Set.disjoint_left.mp hin.out hmem) (Set.disjoint_left.mp hin.apart_super hmem)

theorem Spares.layout {T : Set Nat} (h : Spares T s s') (hino : ino ∉ T)
    (hlay : Layout s.sb s.vol.dev ino (s.body ino) data) :
    Layout s'.sb s'.vol.dev ino (s'.body ino) data := by
  rw [h.body ino hino]
  refine hlay.mono (fun a => h.geometry.physAddr a) ?_
  intro e he x hx p hp
  exact h.cells ino hino p ⟨x, mem_itemSpans he hx, hp⟩

/-! ## 2. Editing an inode -/

theorem commit_churned (hs : SpaceOk s) (hrun : mapBackend.updateFsTreeRoot s = .ok () s') :
    Churned s s' ∧ s'.records = s.records := by
  obtain ⟨hch, hrec, -⟩ := churned_commit hs
  have hop : mapCommit s = .ok () s' := hrun
  rw [hop] at hch hrec
  exact ⟨hch, hrec⟩

section edit

variable {readErr updateErr : String} {f : MapFs → Bytes → Bytes} {d : Bytes}

theorem editInode_churned (hs : SpaceOk s) :
    Churned s (final (editInode mapBackend ino readErr updateErr f s)) := by
  simp only [editInode]
  cases hd : mapBackend.searchTree s ⟨ino, typeInodeItem, 0⟩ with
  | error e => exact Churned.refl hs
  | ok d =>
    simp only [step, final_wrapErr]
    cases hup : mapBackend.cowUpdate ⟨ino, typeInodeItem, 0⟩ (f s d) s with
    | ok u t =>
      have hop : mapUpdate ⟨ino, typeInodeItem, 0⟩ (f s d) s = .ok u t := hup
      exact (mapOp_ok hs hop).1
    | error e t =>
      have hop : mapUpdate ⟨ino, typeInodeItem, 0⟩ (f s d) s = .error e t := hup
      exact (mapOp_error hs hop).1

theorem updateInodeMetadata_churned (hs : SpaceOk s)
    (hrun : updateInodeMetadata mapBackend now ino f s = .ok () s') : Churned s s' := by
  obtain ⟨_, t, hedit, hcommit⟩ := run_bind.mp hrun
  have hch : Churned s (final (EStateM.Result.ok () t : EStateM.Result Err MapFs Unit)) :=
    hedit ▸ editInode_churned hs
  exact hch.trans (commit_churned hch.ok hcommit).1

/-- An edit of an inode that is there fails for want of a block only. -/
theorem editInode_of_not_starved (hs : SpaceOk s)
    (hd : s.records.find? ⟨ino, typeInodeItem, 0⟩ = some d) (hfit : fitsLeaf s.sb (f s d) = true)
    (hst : (final (editInode mapBackend ino readErr updateErr f s)).starved = false) :
    ∃ s', editInode mapBackend ino readErr updateErr f s = .ok () s' := by
  have hsearch : mapBackend.searchTree s ⟨ino, typeInodeItem, 0⟩ = .ok d := by
    simp only [mapBackend, mapSearch, hd]
  simp only [editInode, hsearch, step] at hst ⊢
  rw [final_wrapErr] at hst
  cases hup : mapBackend.cowUpdate ⟨ino, typeInodeItem, 0⟩ (f s d) s with
  | ok u t => exact ⟨t, run_wrapErr.mpr hup⟩
  | error e t =>
    rw [hup, final_error] at hst
    have hop : mapUpdate ⟨ino, typeInodeItem, 0⟩ (f s d) s = .error e t := hup
    rcases (mapOp_error hs hop).2.2 with hstarved | ⟨-, hf⟩
    · rw [hst] at hstarved
      cases hstarved
    · simp only [hd, Option.isNone_some, Bool.false_eq_true, if_false, hfit, if_true] at hf
      cases hf

end edit

theorem editInode_error_records {readErr updateErr : String} {f : MapFs → Bytes → Bytes} {e : Err}
    (hrun : editInode mapBackend ino readErr updateErr f s = .error e s') :
    s'.records = s.records := by
  simp only [editInode] at hrun
  cases hd : mapBackend.searchTree s ⟨ino, typeInodeItem, 0⟩ with
  | error e' =>
    rw [hd] at hrun
    cases hrun
    rfl
  | ok d =>
    rw [hd] at hrun
    simp only [step, wrapErr] at hrun
    cases hup : mapBackend.cowUpdate ⟨ino, typeInodeItem, 0⟩ (f s d) s with
    | ok u t => rw [hup] at hrun; cases hrun
    | error e' t =>
      rw [hup] at hrun
      cases hrun
      have hop : mapUpdate ⟨ino, typeInodeItem, 0⟩ (f s d) s = .error e' s' := hup
      exact (mapOp_error_effect hop).2

/-! ## 3. Overwriting -/

theorem SameEntries.of_bodyAdded (h : BodyAdded ino s s') : SameEntries s.records s'.records := by
  obtain ⟨items, hrec, hitems⟩ := h.items
  have htyp : ∀ e ∈ items, e.1.typ = typeExtentData := by
    intro e he
    have hin := hitems e he
    rw [inPrefix, decide_eq_true_eq] at hin
    exact hin.2
  rw [hrec]
  refine ⟨fun _ _ => Records.find?_insertAll_of_ne fun e he => ?_, fun _ =>
    Records.keep_insertAll_of_false fun e he => ?_⟩
  · exact SameEntries.ne_of_typ (by rw [htyp e he]; simp [typeDirItem, typeExtentData])
  · exact SameEntries.not_inPrefix (by rw [htyp e he]; decide)

theorem Decodes.overwritten {d : Bytes} {len : Nat} {i : InodeItem} (h : Decodes d len i)
    (sb : Superblock) (now : Timespec) (hdata : data.length < 2 ^ 64) :
    Decodes (overwritten sb now data d) len { i with size := data.length } :=
  ((((h.putSize hdata).putNBytes _).bump _).times inodeOffCTime now (by decide) (by decide)).times
    inodeOffMTime now (by decide) (by decide)

theorem length_overwritten {sb : Superblock} {d : Bytes} (h : Whole d) :
    (overwritten sb now data d).length = d.length := by
  have hsize := h.put 8 inodeOffSize data.length (by decide)
  have hbytes := hsize.put 8 inodeOffNBytes (classifyExtent data sb.sectorSize) (by decide)
  have hbump := hbytes.bump (sb.generation + 1)
  have hchange := hbump.times inodeOffCTime now (by decide)
  rw [overwritten, length_writeBtrfsTimespec ((by decide : _ ≤ inodeItemSize).trans hchange),
    length_writeBtrfsTimespec ((by decide : _ ≤ inodeItemSize).trans hbump),
    length_bumpInodeTransIDSequence hbytes,
    length_putLE ((by decide : _ ≤ inodeItemSize).trans hsize),
    length_putLE ((by decide : _ ≤ inodeItemSize).trans h)]

theorem BodyAdded.inodeAt (h : BodyAdded ino s s') (i : Nat) : s'.inodeAt i = s.inodeAt i := by
  obtain ⟨items, hrec, hitems⟩ := h.items
  rw [MapFs.inodeAt, hrec]
  refine Records.find?_insertAll_of_ne ?_
  intro e he heq
  have hin := hitems e he
  rw [heq, inPrefix_inodeKey (by decide)] at hin
  cases hin

/-- The steps of an overwrite up to the new body, and what is left to do. -/
theorem overwrite_body (hs : Intact s) (hino : HasInode s.records ino)
    (hrun : overwriteFile mapBackend now ino data s = .ok () s') :
    ∃ s₃, Intact s₃ ∧ SameGeometry s.sb s₃.sb ∧ s₃.inodeAt ino = s.inodeAt ino ∧
      Layout s₃.sb s₃.vol.dev ino (s₃.body ino) data ∧
      mapBackend.updateFsTreeRoot (final (editInode mapBackend ino "" ""
        (fun s d => overwritten s.sb now data d) s₃)) = .ok () s' := by
  obtain ⟨s₂, s₃, hclear, hwrite, hcommit⟩ := overwriteFile_inv hrun
  obtain ⟨hs₂, hspares₂, hbody, hrec₂⟩ := clearBody_ok hs hclear
  have hino₂ : s₂.inodeAt ino = s.inodeAt ino := by
    rw [MapFs.inodeAt, hrec₂]
    exact Records.find?_removeAll (inPrefix_inodeKey (by decide) ino)
  obtain ⟨hs₃, hspares₃, hlaid, -⟩ := writeBody_ok hs₂ (hino.of_inodeAt hino₂) hbody hwrite
  exact ⟨s₃, hs₃, hspares₂.geometry.trans hspares₃.geometry,
    ((writeExtents_effect hwrite).inodeAt ino).trans hino₂, hlaid, hcommit⟩

/-- The new body stays through the rest of an overwrite, whether or not the inode could be edited. -/
theorem overwrite_laid (hs : Intact s) (hino : HasInode s.records ino)
    (hrun : overwriteFile mapBackend now ino data s = .ok () s') :
    Layout s'.sb s'.vol.dev ino (s'.body ino) data := by
  obtain ⟨s₃, hs₃, -, -, hlaid, hcommit⟩ := overwrite_body hs hino hrun
  have hch : Churned s₃
      (final (editInode mapBackend ino "" "" (fun s d => overwritten s.sb now data d) s₃)) :=
    editInode_churned hs₃.space
  obtain ⟨hch', hrec'⟩ := commit_churned hch.ok hcommit
  have hbody : s'.body ino = s₃.body ino := by
    rw [MapFs.body, hrec']
    cases hedit : editInode mapBackend ino "" "" (fun s d => overwritten s.sb now data d) s₃ with
    | error e t =>
      rw [final_error, editInode_error_records hedit]
      rfl
    | ok u t =>
      obtain ⟨-, d, -, hrec₄⟩ := editInode_effect hedit
      rw [final_ok, hrec₄]
      exact Records.keep_update_of_false (inPrefix_inodeKey (by decide) ino)
  rw [hbody]
  exact hs₃.layout_churned (hch.trans hch') hlaid

/-- An overwrite that missed no node block has edited the inode. -/
theorem overwrite_inode {d : Bytes} (hs : Intact s) (hd : s.inodeAt ino = some d)
    (hrun : overwriteFile mapBackend now ino data s = .ok () s') (hst : s'.starved = false) :
    ∃ sb, SameGeometry s.sb sb ∧ s'.inodeAt ino = some (overwritten sb now data d) := by
  have hino : HasInode s.records ino := by rw [HasInode, ← MapFs.inodeAt, hd]; rfl
  obtain ⟨s₃, hs₃, hgeo, hinode, -, hcommit⟩ := overwrite_body hs hino hrun
  have hd₃ : s₃.records.find? ⟨ino, typeInodeItem, 0⟩ = some d := hinode.trans hd
  have hitem := hs₃.items _ (Records.mem_of_find? hd₃)
  -- the edited item is as long as the old one, which had a place in a leaf
  have hfit : fitsLeaf s₃.sb (overwritten s₃.sb now data d) = true := by
    have hold := hitem.fits
    rw [fitsLeaf, decide_eq_true_eq] at hold ⊢
    rw [length_overwritten (hitem.whole rfl)]
    exact hold
  -- no block was missed up to the end, so that the edit whose error is dropped has none
  obtain ⟨hch', hrec'⟩ := commit_churned (editInode_churned hs₃.space).ok hcommit
  have hst₄ : (final (editInode mapBackend ino "" ""
      (fun s d => overwritten s.sb now data d) s₃)).starved = false := by
    by_contra hcontra
    rw [hch'.starved (by simpa using hcontra)] at hst
    cases hst
  obtain ⟨s₄, hok⟩ := editInode_of_not_starved (f := fun s d => overwritten s.sb now data d)
    hs₃.space hd₃ hfit hst₄
  rw [hok, final_ok] at hrec'
  obtain ⟨-, d', hd', hrec₄⟩ := editInode_effect hok
  obtain rfl : d = d' := Option.some.inj (hd₃.symm.trans hd')
  refine ⟨s₃.sb, hgeo, ?_⟩
  rw [MapFs.inodeAt, hrec', hrec₄]
  exact Records.find?_update_self (by rw [hd₃]; rfl)

/-! ## 4. Creating -/

theorem SameEntries.of_edit {readErr updateErr : String} {f : MapFs → Bytes → Bytes}
    (hrun : editInode mapBackend ino readErr updateErr f s = .ok () s') :
    SameEntries s.records s'.records := by
  obtain ⟨-, d, -, hrec⟩ := editInode_effect hrun
  rw [hrec]
  exact SameEntries.update (by simp [typeInodeItem, typeDirItem])
    (by simp [typeInodeItem, typeDirIndex])

/-- Entries are added between steps that leave entries alone. -/
theorem EntryAdded.of_same {s₂ : MapFs} {dirIno : Nat} {name : Name} {entry : Bytes}
    (h : SameEntries s.records s₁.records) (hadd : EntryAdded s₁ dirIno name entry s₂)
    (h' : SameEntries s₂.records s'.records) : EntryAdded s dirIno name entry s' := by
  refine ⟨?_, ?_, ?_, ?_⟩
  · intro d x hne
    rw [h'.hashed, hadd.hashed_other d x hne, h.hashed]
  · rw [h'.hashed, hadd.hashed, h.hashed]
  · intro d hd
    rw [h'.indexed, hadd.indexed_other d hd, h.indexed]
  · obtain ⟨idx, hidx⟩ := hadd.indexed
    exact ⟨idx, by rw [h'.indexed, hidx, h.indexed]⟩

theorem insertDirEntry_added {dirIno : Nat} {name : Name} {entry : Bytes} {e₁ e₂ : String}
    {args : List ErrArg}
    (hrun : insertDirEntry mapBackend e₁ e₂ args dirIno (nextDirIndexOffset mapBackend s dirIno) name
      entry s = .ok () s') :
    EntryAdded s dirIno name entry s' ∧ fitsLeaf s.sb entry = true := by
  obtain ⟨_, s₁, hindex, hitem⟩ := run_bind.mp hrun
  obtain ⟨hsb, hrec₁, hfit⟩ := insert_effect (run_wrapErr.mp hindex)
  obtain ⟨-, hrec₂, -⟩ := insert_effect (run_wrapErr.mp hitem)
  have hkeep : ∀ d, s'.records.keep (inPrefix d typeDirIndex) =
      (s.records.insert ⟨dirIno, typeDirIndex, nextDirIndexOffset mapBackend s dirIno⟩ entry).keep
        (inPrefix d typeDirIndex) := by
    intro d
    rw [hrec₂, hrec₁]
    exact Records.keep_insert_of_false (SameEntries.not_inPrefix (by simp [typeDirItem, typeDirIndex]))
  refine ⟨⟨?_, ?_, ?_, nextDirIndexOffset mapBackend s dirIno, ?_⟩, hfit⟩
  · intro d h hne
    rw [hrec₂, hrec₁, Records.find?_insert_of_ne, Records.find?_insert_of_ne]
    · exact SameEntries.ne_of_typ (by simp [typeDirItem, typeDirIndex])
    · intro heq
      cases heq
      exact hne rfl
  · rw [hrec₂, Records.find?_insert_self, hrec₁, Records.find?_insert_of_ne]
    exact SameEntries.ne_of_typ (by simp [typeDirItem, typeDirIndex])
  · intro d hd
    rw [hkeep]
    exact Records.keep_insert_of_false (not_inPrefix_of_ne hd)
  · rw [hkeep]
    refine Records.keep_insert_of_le (by simp [inPrefix]) ?_
    intro e he
    have hlt := lt_nextDirIndexOffset he
    rw [Records.keep, List.mem_filter, inPrefix, decide_eq_true_eq] at he
    refine le_of_lt ?_
    rw [Key.lt_def]
    simp only
    omega

theorem adjustDirSize_same {dirIno : Nat} {delta : Int}
    (hrun : adjustDirSize mapBackend dirIno delta s = .ok () s') :
    SameEntries s.records s'.records := by
  rw [adjustDirSize] at hrun
  split_ifs at hrun with hzero
  · obtain ⟨-, rfl⟩ := run_pure.mp hrun
    exact SameEntries.refl _
  · exact SameEntries.of_edit hrun

/-- The entry, its back-reference, and the edits of the directory. -/
theorem enter_added {parentIno newIno : Nat} {name : Name} {entry item : Bytes}
    {e₁ e₂ e₃ e₄ e₅ : String} {args : List ErrArg}
    (hrun : (do
      insertDirEntry mapBackend e₁ e₂ args parentIno (nextDirIndexOffset mapBackend s parentIno) name
        entry
      step e₃ args (mapBackend.cowInsert ⟨newIno, typeInodeRef, parentIno⟩ item)
      step e₄ args (adjustDirSize mapBackend parentIno (dirEntrySizeDelta name))
      step e₅ args (touchDir mapBackend now parentIno)
      mapBackend.updateFsTreeRoot : FileM MapFs Unit) s = .ok () s') :
    EntryAdded s parentIno name entry s' ∧ fitsLeaf s.sb entry = true := by
  obtain ⟨_, s₁, henter, hrun₁⟩ := run_bind.mp hrun
  obtain ⟨_, s₂, href, hrun₂⟩ := run_bind.mp hrun₁
  obtain ⟨_, s₃, hsize, hrun₃⟩ := run_bind.mp hrun₂
  obtain ⟨_, s₄, htouch, hcommit⟩ := run_bind.mp hrun₃
  obtain ⟨hadded, hfit⟩ := insertDirEntry_added henter
  have hsame₂ : SameEntries s₁.records s₂.records := by
    obtain ⟨-, hrec, -⟩ := insert_effect (run_wrapErr.mp href)
    rw [hrec]
    exact SameEntries.insert (by simp [typeInodeRef, typeDirItem]) (by simp [typeInodeRef, typeDirIndex])
  have hsame₃ := adjustDirSize_same (run_wrapErr.mp hsize)
  have hsame₄ : SameEntries s₃.records s₄.records := SameEntries.of_edit (run_wrapErr.mp htouch)
  have hsame' : SameEntries s₄.records s'.records := by
    rw [(commit_effect hcommit).2]
    exact SameEntries.refl _
  refine ⟨EntryAdded.of_same (SameEntries.refl _) hadded ?_, hfit⟩
  exact ((hsame₂.trans hsame₃).trans hsame₄).trans hsame'

theorem nameOk_of_fitsLeaf {sb : Superblock} {entryIno ft : Nat} {name : Name}
    (hmax : sb.nodeSize ≤ maxNodeSize)
    (hfit : fitsLeaf sb (encodeDirItem entryIno typeInodeItem ft name) = true) : NameOk name := by
  rw [fitsLeaf, decide_eq_true_eq, length_encodeDirItem] at hfit
  simp only [maxNodeSize, dirItemHdrSize, nodeHdrSize, itemSize] at hmax hfit
  simp only [NameOk]
  omega

theorem nameOk_of_fits {entryIno ft : Nat} {name : Name} (hs : Intact s)
    (hfit : fitsLeaf s.sb (encodeDirItem entryIno typeInodeItem ft name) = true) : NameOk name :=
  nameOk_of_fitsLeaf hs.space.geometry.nodeSize_le hfit

/-- A new inode is found under its name and reads as the data. -/
theorem create_read {parentIno mode fileType : Nat} {name : Name} {opLabel : String} (hs : Intact s)
    (hparent : HasInode s.records parentIno) (hlen : data.length < 2 ^ 64) (hmode : mode < 2 ^ 16)
    (hrun : createInodeWithDirEntry mapBackend now parentIno name data mode fileType opLabel s =
      .ok () s') :
    EntryAdded s parentIno name
        (encodeDirItem (nextInodeNum mapBackend s) typeInodeItem fileType name) s' ∧
      NameOk name ∧
      readInode mapBackend s' (nextInodeNum mapBackend s) =
        .ok ⟨nextInodeNum mapBackend s, mode, data.length, 1⟩ ∧
      Layout s'.sb s'.vol.dev (nextInodeNum mapBackend s) (s'.body (nextInodeNum mapBackend s))
        data := by
  have hrun₁ := run_get_bind.mp hrun
  obtain ⟨_, s₁, hinsert, hrun₂⟩ := run_bind.mp hrun₁
  obtain ⟨_, s₂, hwrite, hrun₃⟩ := run_bind.mp hrun₂
  have hrun₄ := run_get_bind.mp hrun₃
  obtain ⟨hfresh, hbody⟩ := hs.nextInode_fresh
  obtain ⟨hs₂, -, hlaid, -⟩ := newInode_ok hs (Whole.encode ..) hbody
    (run_wrapErr.mp hinsert) (run_wrapErr.mp hwrite)
  obtain ⟨hs', hspares⟩ := steps_enter s₂ () s' hs₂ hrun₄
  obtain ⟨hadded, hfit⟩ := enter_added hrun₄
  obtain ⟨-, hrec₁, -⟩ := insert_effect (run_wrapErr.mp hinsert)
  have hbodyAdded := writeExtents_effect (run_wrapErr.mp hwrite)
  have hne : nextInodeNum mapBackend s ∉ ({parentIno} : Set Nat) := by
    intro heq
    exact absurd (lt_nextInodeNum hparent) (by rw [Set.mem_singleton_iff.mp heq]; exact lt_irrefl _)
  have hsame : SameEntries s.records s₂.records := by
    refine SameEntries.trans ?_ (SameEntries.of_bodyAdded hbodyAdded)
    rw [hrec₁]
    exact SameEntries.insert (by simp [typeInodeItem, typeDirItem]) (by simp [typeInodeItem, typeDirIndex])
  refine ⟨EntryAdded.of_same hsame hadded (SameEntries.refl _), nameOk_of_fits hs₂ hfit, ?_, ?_⟩
  · have hat := hspares.inode _ hne
    rw [MapFs.inodeAt, MapFs.inodeAt] at hat
    rw [MapFs.inodeAt] at hfresh
    have hkept := hbodyAdded.inodeAt (nextInodeNum mapBackend s)
    rw [MapFs.inodeAt, MapFs.inodeAt] at hkept
    rw [hkept, hrec₁, Records.find?_insert_self, hfresh] at hat
    exact readInode_of_decodes hat (Decodes.encode (nextInodeNum mapBackend s) _ _ now hlen hmode
      (by decide)) rfl
  · exact hspares.layout hne hlaid

/-! ## 5. Writing, then reading -/

section calls

variable {p dir : Path} {name : Name}

theorem append_of_splitPath (hne : p ≠ []) (hp : splitPath p = (dir, name)) : p = dir ++ [name] := by
  rw [splitPath, Prod.mk.injEq] at hp
  obtain ⟨rfl, rfl⟩ := hp
  rw [List.getLast?_eq_some_getLast hne, Option.getD_some]
  exact (List.dropLast_append_getLast hne).symm

/-- A path is followed to its directory, and from there to its last name. -/
theorem walkPath_split {parentIno ft : Nat} (hne : p ≠ []) (hp : splitPath p = (dir, name))
    (hdir : walkPath mapBackend s rootDirObjID dir = .ok parentIno)
    (hname : lookupDirEntry mapBackend s parentIno name = .ok (ino, ft)) :
    walkPath mapBackend s rootDirObjID p = .ok ino := by
  rw [append_of_splitPath hne hp, walkPath_append hdir, walkPath, hname]
  rfl

theorem readFile_of_lookup (codec : Codec) {i : InodeItem}
    (hlook : pathLookup mapBackend s p = .ok i) (hreg : i.isRegular = true) :
    readFile mapBackend codec s p = readFileData mapBackend codec s i := by
  simp only [readFile, hlook, hreg, Bool.not_true, Bool.false_eq_true, if_false]

theorem readFile_inv {codec : Codec} {b : Bytes} (h : readFile mapBackend codec s p = .ok b) :
    ∃ i, pathLookup mapBackend s p = .ok i ∧ i.isRegular = true ∧
      readFileData mapBackend codec s i = .ok b := by
  rw [readFile] at h
  cases hlook : pathLookup mapBackend s p with
  | error e => rw [hlook] at h; cases h
  | ok i =>
    simp only [hlook] at h
    cases hreg : i.isRegular with
    | false =>
      simp only [hreg, Bool.not_false, if_true] at h
      cases h
    | true =>
      simp only [hreg, Bool.not_true, Bool.false_eq_true, if_false] at h
      exact ⟨i, rfl, hreg, h⟩

end calls

/-- What an overwrite does to entries and inode, whether or not the inode is there. -/
theorem overwrite_effect (hrun : overwriteFile mapBackend now ino data s = .ok () s') :
    SameEntries s.records s'.records ∧
      (s'.inodeAt ino = s.inodeAt ino ∨
        ∃ sb d, s.inodeAt ino = some d ∧ s'.inodeAt ino = some (overwritten sb now data d)) := by
  obtain ⟨s₂, s₃, hclear, hwrite, hcommit⟩ := overwriteFile_inv hrun
  have hrec₂ := (deletePrefix_effect hclear).2
  rw [(freeInodeExtents_frame s ino).2] at hrec₂
  have hadded := writeExtents_effect hwrite
  have hrec' := (commit_effect hcommit).2
  have hsame₃ : SameEntries s.records s₃.records := by
    refine SameEntries.trans ?_ (SameEntries.of_bodyAdded hadded)
    rw [hrec₂]
    exact SameEntries.removeAll (by decide) (by decide)
  have hinode₃ : s₃.inodeAt ino = s.inodeAt ino := by
    rw [hadded.inodeAt ino, MapFs.inodeAt, hrec₂]
    exact Records.find?_removeAll (inPrefix_inodeKey (by decide) ino)
  cases hedit : editInode mapBackend ino "" "" (fun s d => overwritten s.sb now data d) s₃ with
  | error e t =>
    rw [hedit, final_error, editInode_error_records hedit] at hrec'
    refine ⟨?_, Or.inl ?_⟩
    · rw [hrec']
      exact hsame₃
    · rw [MapFs.inodeAt, hrec']
      exact hinode₃
  | ok u t =>
    obtain ⟨-, d, hd, hrec₄⟩ := editInode_effect hedit
    rw [hedit, final_ok, hrec₄] at hrec'
    refine ⟨?_, Or.inr ⟨s₃.sb, d, hinode₃.symm.trans hd, ?_⟩⟩
    · rw [hrec']
      exact hsame₃.trans (SameEntries.update (by simp [typeInodeItem, typeDirItem])
        (by simp [typeInodeItem, typeDirIndex]))
    · rw [MapFs.inodeAt, hrec']
      exact Records.find?_update_self (by rw [hd]; rfl)

/-- An overwritten inode reads as the new data. -/
theorem overwrite_read {i : InodeItem} (hs : Intact s) (hread : readInode mapBackend s ino = .ok i)
    (hlen : data.length < 2 ^ 64)
    (hrun : overwriteFile mapBackend now ino data s = .ok () s') (hst : s'.starved = false) :
    SameEntries s.records s'.records ∧
      readInode mapBackend s' ino = .ok { i with size := data.length } ∧
      Layout s'.sb s'.vol.dev ino (s'.body ino) data := by
  obtain ⟨hnum, d, hd, hdec⟩ := readInode_num hread
  have hino : HasInode s.records ino := by rw [HasInode, hd]; rfl
  obtain ⟨sb, -, hinode⟩ := overwrite_inode hs hd hrun hst
  exact ⟨(overwrite_effect hrun).1, readInode_of_decodes hinode (hdec.overwritten sb now hlen) hnum,
    overwrite_laid hs hino hrun⟩

/-- The entry a path names, if there is one, has an inode that can be read and is a regular file. -/
def TargetReadable (s : MapFs) (p : Path) : Prop :=
  ∀ parentIno ino ft, pathLookupIno mapBackend s (splitPath p).1 = .ok parentIno →
    lookupDirEntry mapBackend s parentIno (splitPath p).2 = .ok (ino, ft) →
    ∃ i, readInode mapBackend s ino = .ok i ∧ i.isRegular = true

theorem TargetReadable.notDangling {p : Path} {perm : Nat} (h : TargetReadable s p) :
    NotDangling (.writeFile p data perm) s := by
  intro parentIno ino ft hparent hentry
  obtain ⟨i, hi, -⟩ := h parentIno ino ft hparent hentry
  obtain ⟨-, d, hd, -⟩ := readInode_num hi
  rw [HasInode, hd]
  rfl

theorem targetReadable_records {p : Path} (h : s'.records = s.records) :
    TargetReadable s' p ↔ TargetReadable s p := by
  have hread : ∀ n, readInode mapBackend s' n = readInode mapBackend s n :=
    fun n => readInode_congr (by rw [h])
  simp only [TargetReadable, pathLookupIno_records h, lookupDirEntry_records h, hread]

theorem fileMode_lt (perm : Nat) : fileMode perm < 2 ^ 16 := by
  rw [fileMode]
  exact Nat.or_lt_two_pow (by decide) (lt_of_le_of_lt Nat.and_le_right (by decide))

theorem isRegular_fileMode (perm : Nat) : fileMode perm &&& 0xF000 = 0x8000 := by
  have hlow : (perm &&& 0o777) &&& 0xF000 = 0 := by
    rw [Nat.and_assoc]
    simp
  rw [fileMode, Nat.and_or_distrib_right, hlow]
  rfl

/-- The path leads to a regular inode whose items stand for the data. -/
def FileAs (s : MapFs) (p : Path) (data : Bytes) : Prop :=
  ∃ i, pathLookup mapBackend s p = .ok i ∧ i.isRegular = true ∧ i.size = data.length ∧
    Layout s.sb s.vol.dev i.num (s.body i.num) data

section readback

variable {codec : Codec} {p dir : Path} {name : Name} {parentIno : Nat}

/-- After a file was created, its path leads to a regular inode with the data. -/
theorem createFile_layout {perm : Nat} {e : Err} (hs : Intact s) (hne : p ≠ [])
    (hp : splitPath p = (dir, name)) (hlen : data.length < 2 ^ 64)
    (hroom : nextInodeNum mapBackend s < 2 ^ 64)
    (hparent : pathLookupIno mapBackend s dir = .ok parentIno)
    (habsent : lookupDirEntry mapBackend s parentIno name = .error e)
    (hrun : createFile mapBackend now parentIno name data perm s = .ok () s') :
    FileAs s' p data := by
  obtain ⟨hwalk, j, hj⟩ := pathLookupIno_inv hparent
  obtain ⟨-, d, hd, -⟩ := readInode_num hj
  have hhas : HasInode s.records parentIno := by rw [HasInode, hd]; rfl
  obtain ⟨hadded, hname, hread, hlaid⟩ := create_read hs hhas hlen (fileMode_lt perm) hrun
  have hwalk' := hadded.walk habsent hroom (by decide) hname hwalk
  have hentry := hadded.lookup habsent hroom (by decide) hname
  exact ⟨_, pathLookup_of_walk (walkPath_split hne hp hwalk' hentry) hread,
    decide_eq_true (isRegular_fileMode perm), rfl, hlaid⟩

/-- After an overwrite through an entry with a readable inode, so does the path. -/
theorem overwriteFile_layout {ft : Nat} {i : InodeItem} (hs : Intact s) (hne : p ≠ [])
    (hp : splitPath p = (dir, name)) (hlen : data.length < 2 ^ 64)
    (hparent : pathLookupIno mapBackend s dir = .ok parentIno)
    (hentry : lookupDirEntry mapBackend s parentIno name = .ok (ino, ft))
    (hread : readInode mapBackend s ino = .ok i) (hreg : i.isRegular = true)
    (hrun : overwriteFile mapBackend now ino data s = .ok () s') (hst : s'.starved = false) :
    FileAs s' p data := by
  obtain ⟨hwalk, -⟩ := pathLookupIno_inv hparent
  obtain ⟨hnum, -⟩ := readInode_num hread
  obtain ⟨hsame, hread', hlaid⟩ := overwrite_read hs hread hlen hrun hst
  refine ⟨_, pathLookup_of_walk (walkPath_split hne hp ((walkPath_congr hsame _ _).trans hwalk)
    ((lookupDirEntry_congr hsame _ _).trans hentry)) hread', hreg, rfl, ?_⟩
  rw [← hnum] at hlaid
  exact hlaid

/-- A path that can be read after an overwrite had a regular inode before. -/
theorem readable_of_overwriteFile {ft : Nat} {b : Bytes} (hs : Intact s) (hne : p ≠ [])
    (hp : splitPath p = (dir, name)) (hlen : data.length ≤ hardSizeCeiling)
    (hparent : pathLookupIno mapBackend s dir = .ok parentIno)
    (hentry : lookupDirEntry mapBackend s parentIno name = .ok (ino, ft))
    (hrun : overwriteFile mapBackend now ino data s = .ok () s')
    (hb : readFile mapBackend codec s' p = .ok b) :
    ∃ i, readInode mapBackend s ino = .ok i ∧ i.isRegular = true := by
  obtain ⟨hwalk, -⟩ := pathLookupIno_inv hparent
  obtain ⟨hsame, hinode⟩ := overwrite_effect hrun
  obtain ⟨i, hlook, hreg, -⟩ := readFile_inv hb
  obtain ⟨hwalk', hread⟩ := pathLookup_inv hlook
  have hsplit := walkPath_split hne hp ((walkPath_congr hsame _ _).trans hwalk)
    ((lookupDirEntry_congr hsame _ _).trans hentry)
  obtain rfl : ino = i.num := Except.ok.inj (hsplit.symm.trans hwalk')
  obtain ⟨-, d', hd', hdec'⟩ := readInode_num hread
  rcases hinode with hkept | ⟨sb, d, hd, hover⟩
  · exact ⟨i, (readInode_congr hkept).symm.trans hread, hreg⟩
  · -- the edit changed the size and left the mode
    rw [MapFs.inodeAt, hd', Option.some.injEq] at hover
    rw [hover] at hdec'
    have hwhole : Whole d := (hs.items _ (Records.mem_of_find? hd)).whole rfl
    have hdec : Decodes d d.length (decodeInodeItem i.num d) := ⟨rfl, hwhole, rfl⟩
    have hedited := (hdec.overwritten sb now (hlen.trans_lt (by decide))).item
    have hmode : (decodeInodeItem i.num d).mode = i.mode := by
      rw [← hdec'.item]
      exact (congrArg InodeItem.mode hedited).symm
    refine ⟨_, readInode_of_decodes hd hdec rfl, ?_⟩
    rw [InodeItem.isRegular, hmode]
    exact hreg

end readback

/-- A successful `WriteFile` that missed no node block leaves the data at its path, if the entry it
    went through, if any, had the inode of a regular file. -/
theorem writeFile_layout {p : Path} {perm : Nat} (hs : Intact s) (hne : p ≠ [])
    (hlen : data.length < 2 ^ 64) (hroom : nextInodeNum mapBackend s < 2 ^ 64)
    (hrun : writeFile mapBackend now p data perm s = .ok () s') (hst : s'.starved = false)
    (htarget : TargetReadable s p) : FileAs s' p data := by
  obtain ⟨parentIno, hparent, hcase⟩ := writeFile_inv rfl hrun
  rcases hcase with ⟨ino, ft, hentry, -, hover⟩ | ⟨e, habsent, hcreate⟩
  · obtain ⟨i, hi, hreg⟩ := htarget parentIno ino ft hparent hentry
    exact overwriteFile_layout hs hne rfl hlen hparent hentry hi hreg hover hst
  · exact createFile_layout hs hne rfl hlen hroom hparent habsent hcreate

theorem FileAs.readFile {codec : Codec} {p : Path} (h : FileAs s p data)
    (hlen : data.length ≤ hardSizeCeiling) : readFile mapBackend codec s p = .ok data := by
  obtain ⟨i, hlook, hreg, hsize, hlay⟩ := h
  rw [readFile_of_lookup codec hlook hreg]
  exact readFileData_whole codec rfl hsize hlen hlay

/-- **`WriteFile`, then `ReadFile`.** In every state a run reaches in which no `WriteFile` went
    through an entry without an inode, a successful `WriteFile` that missed no node block is read
    back exactly when the entry it went through, if any, had the inode of a regular file. -/
theorem writeFile_readFile_iff {s₀ : MapFs} (codec : Codec) {p : Path} {perm : Nat}
    {script : List (List NodeEvent)} (hfmt : Formatted s₀) (hreach : Reachable NotDangling s₀ s)
    (hne : p ≠ []) (hlen : data.length ≤ 2 ^ 30) (hroom : nextInodeNum mapBackend s < 2 ^ 64)
    (hrun : writeFile mapBackend now p data perm (s.scripted script) = .ok () s')
    (hst : s'.starved = false) :
    readFile mapBackend codec s' p = .ok data ↔ TargetReadable s p := by
  have hs : Intact (s.scripted script) := (hreach.intact hfmt).scripted script
  have hrec : (s.scripted script).records = s.records := rfl
  rw [← targetReadable_records hrec]
  refine ⟨fun hread parentIno ino ft hparent hentry => ?_, fun htarget => ?_⟩
  · obtain ⟨parentIno', hparent', hcase⟩ := writeFile_inv rfl hrun
    obtain rfl : parentIno = parentIno' := Except.ok.inj (hparent.symm.trans hparent')
    rcases hcase with ⟨ino', ft', hentry', -, hover⟩ | ⟨e, habsent, -⟩
    · obtain ⟨rfl, -⟩ := Prod.mk.inj (Except.ok.inj (hentry.symm.trans hentry'))
      exact readable_of_overwriteFile hs hne rfl hlen hparent hentry hover hread
    · cases hentry.symm.trans habsent
  · exact (writeFile_layout hs hne (hlen.trans_lt (by decide)) hroom hrun hst htarget).readFile hlen

/-- The file `a`. -/
def pathA : Path := [[0x61]]

/-- A formatted filesystem with the file `a`. -/
def oneFile : MapFs := (Call.writeFile pathA [1] 0o644).after fmtMap

/-- A name that is not there has an entry without an inode neither. -/
theorem TargetReadable.of_absent {p : Path} {dir : Nat}
    (hdir : pathLookupIno mapBackend s (splitPath p).1 = .ok dir)
    (habsent : (lookupDirEntry mapBackend s dir (splitPath p).2).toOption = none) :
    TargetReadable s p := by
  intro parentIno ino ft hparent hentry
  obtain rfl : dir = parentIno := Except.ok.inj (hdir.symm.trans hparent)
  cases habsent.symm.trans (congrArg Except.toOption hentry)

theorem targetReadable_pathA : TargetReadable fmtMap pathA := by
  have hlook : pathLookupIno mapBackend fmtMap (splitPath pathA).1 = .ok 256 ∧
      (lookupDirEntry mapBackend fmtMap 256 (splitPath pathA).2).toOption = none := by decide +kernel
  exact TargetReadable.of_absent hlook.1 hlook.2

theorem reachable_oneFile : Reachable NotDangling fmtMap oneFile :=
  Relation.ReflTransGen.single (CallStep.after targetReadable_pathA.notDangling (by decide +kernel))

/-- Overwriting `a`: the entry has its inode, and the new content is read back. -/
theorem writeFile_readFile_oneFile :
    readFile mapBackend (fun _ src _ => .ok src) ((Call.writeFile pathA [2, 3] 0o644).after oneFile)
      pathA = .ok [2, 3] := by
  have hrun : writeFile mapBackend ⟨0, 0⟩ pathA [2, 3] 0o644 (oneFile.scripted []) =
      .ok () ((Call.writeFile pathA [2, 3] 0o644).after oneFile) :=
    Call.run_after (c := .writeFile pathA [2, 3] 0o644) (by decide +kernel)
  have hroot : pathLookupIno mapBackend oneFile (splitPath pathA).1 = .ok 256 := by decide +kernel
  have hentry : lookupDirEntry mapBackend oneFile 256 (splitPath pathA).2 = .ok (257, ftRegFile) := by
    decide +kernel
  have htarget : TargetReadable oneFile pathA := by
    intro parentIno ino ft hparent hentry'
    obtain rfl : 256 = parentIno := Except.ok.inj (hroot.symm.trans hparent)
    obtain ⟨rfl, -⟩ := Prod.mk.inj (Except.ok.inj (hentry.symm.trans hentry'))
    exact ⟨⟨257, 0x81A4, 1, 1⟩, by decide +kernel, by decide⟩
  exact (writeFile_readFile_iff _ formatted_fmtMap reachable_oneFile (by decide) (by simp)
    (by decide +kernel) hrun (by decide +kernel)).mpr htarget

/-- A rename of `a` onto itself: the entry stays, its inode is gone. -/
def selfRenamed : MapFs := (Call.rename pathA pathA).after oneFile

theorem reachable_selfRenamed : Reachable NotDangling fmtMap selfRenamed := by
  have hrun : succeeded ((Call.rename pathA pathA).run mapBackend ⟨0, 0⟩ (oneFile.scripted [])) =
      true := by decide +kernel
  exact reachable_oneFile.tail (CallStep.after trivial hrun)

/-- Over it, `WriteFile` succeeds and nothing can be read. -/
theorem writeFile_unread_selfRenamed :
    Formatted fmtMap ∧ Reachable NotDangling fmtMap selfRenamed ∧
      pathLookupIno mapBackend selfRenamed (splitPath pathA).1 = .ok rootDirObjID ∧
      lookupDirEntry mapBackend selfRenamed rootDirObjID (splitPath pathA).2 =
        .ok (257, ftRegFile) ∧
      ∃ s', writeFile mapBackend ⟨0, 0⟩ pathA [2, 3] 0o644 (selfRenamed.scripted []) = .ok () s' ∧
        s'.starved = false ∧
        readFile mapBackend (fun _ src _ => .ok src) s' pathA ≠ .ok [2, 3] := by
  have hrun := Call.run_after (c := .writeFile pathA [2, 3] 0o644) (s := selfRenamed)
    (by decide +kernel)
  exact ⟨formatted_fmtMap, reachable_selfRenamed, by decide +kernel, by decide +kernel, _, hrun,
    by decide +kernel, by decide +kernel⟩

end Btrfs
