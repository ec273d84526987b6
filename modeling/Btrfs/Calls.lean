/-
  Btrfs/Calls.lean
  ================
  **What the mutating calls leave alone** — every call takes an intact filesystem to an
  intact one, and touches few inodes.

  The bodies of the calls are put together from the steps of `Intact.lean`.  One thing a
  call can meet breaks the pattern: an entry whose inode is gone.  Overwriting through
  such an entry gives extents to an inode that does not exist.
-/
import Btrfs.Intact

namespace Btrfs

open Lib

variable {s s' s₁ : MapFs} {T : Set Nat}

/-! ## 1. Steps that may fail -/

/-- A tree operation that fails has made traffic at most. -/
theorem fails_mapOp {f : Superblock → Records Key Bytes → Except Err (Records Key Bytes)} {e : Err}
    (hs : Intact s) (hrun : mapOp f s = .error e s') : Intact s' ∧ Spares T s s' := by
  obtain ⟨hch, hrec, -⟩ := mapOp_error hs.space hrun
  refine hs.quietStep hch ?_ ?_ ?_
  · exact ⟨by rw [hrec], fun ino h => by rw [hrec]; exact h⟩
  · intro e he
    exact hs.items e (hrec ▸ he)
  · intro ino _
    rw [MapFs.inodeAt, hrec]
    rfl

theorem Steps.tolerate {x : FileM MapFs Unit} {format : String} (h : Steps T x)
    (hfail : ∀ s e s', Intact s → x s = .error e s' → Intact s' ∧ Spares T s s') :
    Steps T (tolerateNotFound format x) := by
  intro s a s' hs hrun
  simp only [tolerateNotFound] at hrun
  cases hx : x s with
  | ok u t =>
    rw [hx] at hrun
    cases hrun
    exact h s u s' hs hx
  | error e t =>
    rw [hx] at hrun
    by_cases hnf : e.is .errNotFound = true
    · simp only [hnf, if_true] at hrun
      cases hrun
      exact hfail s e s' hs hx
    · simp only [hnf, Bool.false_eq_true, if_false] at hrun
      cases hrun

theorem Steps.ignore {x : FileM MapFs Unit} (h : Steps T x)
    (hfail : ∀ s e s', Intact s → x s = .error e s' → Intact s' ∧ Spares T s s') :
    Steps T (ignoreError x) := by
  intro s a s' hs hrun
  simp only [ignoreError] at hrun
  cases hx : x s with
  | ok u t =>
    rw [hx] at hrun
    cases hrun
    exact h s u s' hs hx
  | error e t =>
    rw [hx] at hrun
    cases hrun
    exact hfail s e s' hs hx

/-! ## 2. Inodes and entries -/

theorem inodeKey_not_file (ino : Nat) : isFileKey ⟨ino, typeInodeItem, 0⟩ = false := rfl

section edits

variable {ino : Nat} {readErr updateErr : String} {f : MapFs → Bytes → Bytes}

/-- The edit keeps INODE_ITEMs whole. -/
def KeepsWhole (f : MapFs → Bytes → Bytes) : Prop := ∀ s d, Whole d → Whole (f s d)

theorem steps_editInode (hf : KeepsWhole f) :
    Steps {ino} (editInode mapBackend ino readErr updateErr f) := by
  intro s a s' hs hrun
  simp only [editInode] at hrun
  cases hd : mapBackend.searchTree s ⟨ino, typeInodeItem, 0⟩ with
  | error e => rw [hd] at hrun; cases hrun
  | ok d =>
    rw [hd] at hrun
    have hwhole : Whole d := by
      simp only [mapBackend, mapSearch] at hd
      cases hfound : s.records.find? ⟨ino, typeInodeItem, 0⟩ with
      | none => rw [hfound] at hd; cases hd
      | some d' =>
        rw [hfound] at hd
        cases hd
        exact (hs.items _ (Records.mem_of_find? hfound)).whole rfl
    exact steps_update (inodeKey_not_file ino) (fun _ => ⟨Set.mem_singleton _, hf s d hwhole⟩)
      s a s' hs (run_wrapErr.mp hrun)

theorem fails_editInode {e : Err} (hs : Intact s)
    (hrun : editInode mapBackend ino readErr updateErr f s = .error e s') :
    Intact s' ∧ Spares T s s' := by
  simp only [editInode] at hrun
  cases hd : mapBackend.searchTree s ⟨ino, typeInodeItem, 0⟩ with
  | error e' =>
    rw [hd] at hrun
    cases hrun
    exact ⟨hs, Spares.refl _⟩
  | ok d =>
    rw [hd] at hrun
    simp only [step, wrapErr] at hrun
    cases hup : mapBackend.cowUpdate ⟨ino, typeInodeItem, 0⟩ (f s d) s with
    | ok u t => rw [hup] at hrun; cases hrun
    | error e' t =>
      rw [hup] at hrun
      cases hrun
      have hop : mapUpdate ⟨ino, typeInodeItem, 0⟩ (f s d) s = .error e' s' := hup
      exact fails_mapOp hs hop

end edits

theorem steps_adjustDirNlink (now : Timespec) (dirIno : Nat) (delta : Int) :
    Steps {dirIno} (adjustDirNlink mapBackend now dirIno delta) := by
  refine steps_editInode fun s d hd => ?_
  exact (((hd.put 4 inodeOffNLink _ (by decide)).bump _).times inodeOffCTime now (by decide)).times
    inodeOffMTime now (by decide)

theorem steps_adjustDirSize (dirIno : Nat) (delta : Int) :
    Steps {dirIno} (adjustDirSize mapBackend dirIno delta) := by
  rw [adjustDirSize]
  split_ifs with hzero
  · exact Steps.pure ()
  · exact steps_editInode fun s d hd => hd.put 8 inodeOffSize _ (by decide)

theorem steps_appendInodeRef (childIno parentIno idx : Nat) (name : Name) :
    Steps T (appendInodeRef mapBackend childIno parentIno idx name) := by
  intro s a s' hs hrun
  simp only [appendInodeRef] at hrun
  cases hd : mapBackend.searchTree s ⟨childIno, typeInodeRef, parentIno⟩ with
  | error e =>
    rw [hd] at hrun
    exact steps_insertOther _ (by decide) (by decide) s a s' hs (run_wrapErr.mp hrun)
  | ok d =>
    rw [hd] at hrun
    by_cases hany : ((parseInodeRefEntries d).any fun e => decide (e.name = name)) = true
    · simp only [hany, if_true] at hrun
      cases hrun
      exact ⟨hs, Spares.refl _⟩
    · simp only [hany, Bool.false_eq_true, if_false] at hrun
      exact steps_updateOther _ (by decide) (by decide) s a s' hs (run_wrapErr.mp hrun)

theorem steps_removeInodeRef (childIno parentIno : Nat) (name : Name) :
    Steps T (removeInodeRef mapBackend childIno parentIno name) := by
  intro s a s' hs hrun
  simp only [removeInodeRef] at hrun
  cases hd : mapBackend.searchTree s ⟨childIno, typeInodeRef, parentIno⟩ with
  | error e =>
    rw [hd] at hrun
    cases hrun
    exact ⟨hs, Spares.refl _⟩
  | ok d =>
    rw [hd] at hrun
    by_cases hempty :
        ((parseInodeRefEntries d).filter fun e => decide (e.name ≠ name)).isEmpty = true
    · simp only [hempty, if_true] at hrun
      exact steps_deleteOther (by decide) (by decide) s a s' hs (run_wrapErr.mp hrun)
    · simp only [hempty, Bool.false_eq_true, if_false] at hrun
      exact steps_updateOther _ (by decide) (by decide) s a s' hs (run_wrapErr.mp hrun)

theorem typ_of_collect {objID typ : Nat} {items : List (Key × Bytes)}
    (h : mapBackend.collectPrefixItems s objID typ = .ok items) :
    items = s.records.keep (inPrefix objID typ) ∧ ∀ e ∈ items, e.1.objID = objID ∧ e.1.typ = typ := by
  simp only [mapBackend, mapCollect] at h
  have heq : items = s.records.keep (inPrefix objID typ) := by
    cases hk : s.records.keep (inPrefix objID typ) with
    | nil => rw [hk] at h; cases h
    | cons e l => rw [hk] at h; cases h; rfl
  refine ⟨heq, ?_⟩
  intro e he
  rw [heq, Records.keep, List.mem_filter, inPrefix, decide_eq_true_eq] at he
  exact he.2

theorem steps_removeDirIndex (format : String) (dirIno : Nat) (name : Name) :
    Steps T (removeDirIndex mapBackend format dirIno name) := by
  intro s a s' hs hrun
  simp only [removeDirIndex] at hrun
  cases hc : mapBackend.collectPrefixItems s dirIno typeDirIndex with
  | error e =>
    rw [hc] at hrun
    cases hrun
    exact ⟨hs, Spares.refl _⟩
  | ok items =>
    rw [hc] at hrun
    cases hfind : items.find? fun e => decide (dirItemName e.2 = some name) with
    | none =>
      simp only [hfind] at hrun
      cases hrun
      exact ⟨hs, Spares.refl _⟩
    | some e =>
      simp only [hfind] at hrun
      have htyp := ((typ_of_collect hc).2 e (List.mem_of_find?_eq_some hfind)).2
      exact steps_delete (by rw [isFileKey, htyp]; rfl) (by rw [htyp]; decide) s a s' hs
        (run_wrapErr.mp hrun)

theorem steps_insertDirEntry (indexErr itemErr : String) (args : List ErrArg) (dirIno idxOff : Nat)
    (name : Name) (entry : Bytes) :
    Steps T (insertDirEntry mapBackend indexErr itemErr args dirIno idxOff name entry) := by
  refine Steps.bind (Steps.step ?_) fun _ => Steps.step ?_
  · exact steps_insertOther entry (by decide) (by decide)
  · exact steps_insertOther entry (by decide) (by decide)

/-! ## 3. Creating -/

theorem le_foldl_inode (l : List (Key × Bytes)) (m : Nat) :
    m ≤ l.foldl (fun m e => if e.1.typ = typeInodeItem ∧ m < e.1.objID then e.1.objID else m) m ∧
      ∀ e ∈ l, e.1.typ = typeInodeItem → e.1.objID ≤
        l.foldl (fun m e => if e.1.typ = typeInodeItem ∧ m < e.1.objID then e.1.objID else m) m := by
  induction l generalizing m with
  | nil => exact ⟨le_rfl, nofun⟩
  | cons a l ih =>
    rw [List.foldl_cons]
    obtain ⟨hle, hall⟩ := ih (if a.1.typ = typeInodeItem ∧ m < a.1.objID then a.1.objID else m)
    have hfirst : m ≤ (if a.1.typ = typeInodeItem ∧ m < a.1.objID then a.1.objID else m) := by
      split_ifs with h
      · exact h.2.le
      · exact le_rfl
    refine ⟨hfirst.trans hle, ?_⟩
    intro e he htyp
    rcases List.mem_cons.mp he with rfl | he
    · refine le_trans ?_ hle
      split_ifs with h
      · exact le_rfl
      · exact not_lt.mp fun hlt => h ⟨htyp, hlt⟩
    · exact hall e he htyp

theorem lt_nextInodeNum {ino : Nat} (h : HasInode s.records ino) :
    ino < nextInodeNum mapBackend s := by
  obtain ⟨d, hd⟩ := Option.isSome_iff_exists.mp h
  have hmem := Records.mem_of_find? hd
  exact Nat.lt_succ_of_le ((le_foldl_inode s.records.list rootDirObjID).2 _ hmem rfl)

/-- The number a new inode gets has no INODE_ITEM and no body. -/
theorem Intact.nextInode_fresh (hs : Intact s) :
    s.inodeAt (nextInodeNum mapBackend s) = none ∧ s.body (nextInodeNum mapBackend s) = [] := by
  constructor
  · by_contra hsome
    have hhas : HasInode s.records (nextInodeNum mapBackend s) :=
      Option.isSome_iff_ne_none.mpr hsome
    exact absurd (lt_nextInodeNum hhas) (lt_irrefl _)
  · refine body_eq_nil_iff.mpr ?_
    intro e he heq
    have hlt := lt_nextInodeNum (hs.owned e he)
    omega

/-- Insert the INODE_ITEM of a new inode and write its body. -/
theorem newInode_ok {ino generation : Nat} {item data : Bytes} (hs : Intact s)
    (hwhole : Whole item) (hbody : s.body ino = [])
    (hinsert : mapBackend.cowInsert ⟨ino, typeInodeItem, 0⟩ item s = .ok () s₁)
    (hwrite : writeExtents mapBackend ino data generation s₁ = .ok () s') :
    Intact s' ∧ Spares {ino} s s' ∧
      Layout s'.sb s'.vol.dev ino (s'.body ino) data ∧
      (∃ items, s'.records = (s.records.insert ⟨ino, typeInodeItem, 0⟩ item).insertAll items ∧
        ∀ e ∈ items, inPrefix ino typeExtentData e.1 = true) := by
  obtain ⟨hs₁, hspares⟩ := steps_insert (T := {ino}) (inodeKey_not_file ino)
    (fun _ => ⟨Set.mem_singleton _, hwhole⟩) s () s₁ hs hinsert
  obtain ⟨-, hrec, -⟩ := mapInsert_ok hs.space hinsert
  have hhas : HasInode s₁.records ino := by
    rw [hrec, HasInode, Records.find?_insert_self]
    rfl
  have hbody₁ : s₁.body ino = [] := by
    rw [MapFs.body, hrec, Records.keep_insert_of_false]
    · exact hbody
    · exact inPrefix_inodeKey (by decide) ino
  obtain ⟨hs', hspares', hlaid, items, hrec', hitems⟩ := writeBody_ok hs₁ hhas hbody₁ hwrite
  exact ⟨hs', hspares.trans hspares', hlaid, items, hrec ▸ hrec', hitems⟩

/-- Enter a new inode in a directory, and commit. -/
theorem steps_enter {now : Timespec} {parentIno ino idxOff : Nat} {name : Name} {entry item : Bytes}
    {e₁ e₂ e₃ e₄ e₅ : String} {args : List ErrArg} :
    Steps {parentIno} (do
      insertDirEntry mapBackend e₁ e₂ args parentIno idxOff name entry
      step e₃ args (mapBackend.cowInsert ⟨ino, typeInodeRef, parentIno⟩ item)
      step e₄ args (adjustDirSize mapBackend parentIno (dirEntrySizeDelta name))
      step e₅ args (touchDir mapBackend now parentIno)
      mapBackend.updateFsTreeRoot) := by
  refine Steps.bind (steps_insertDirEntry e₁ e₂ args parentIno idxOff name entry) fun _ => ?_
  refine Steps.bind (Steps.step (steps_insertOther item (by decide) (by decide))) fun _ => ?_
  refine Steps.bind (Steps.step (steps_adjustDirSize parentIno _)) fun _ => ?_
  refine Steps.bind (Steps.step (steps_adjustDirNlink now parentIno 0)) fun _ => ?_
  exact steps_commit

section pairs

variable {ino parentIno : Nat}

theorem left_subset : ({ino} : Set Nat) ⊆ {ino, parentIno} :=
  Set.singleton_subset_iff.mpr (Set.mem_insert _ _)

theorem right_subset : ({parentIno} : Set Nat) ⊆ {ino, parentIno} := Set.subset_insert _ _

end pairs

theorem createInode_ok {now : Timespec} {parentIno mode fileType : Nat} {name : Name} {data : Bytes}
    {opLabel : String} (hs : Intact s)
    (hrun : createInodeWithDirEntry mapBackend now parentIno name data mode fileType opLabel s =
      .ok () s') :
    Intact s' ∧ Spares {nextInodeNum mapBackend s, parentIno} s s' := by
  have hrun₁ := run_get_bind.mp hrun
  obtain ⟨_, s₁, hinsert, hrun₂⟩ := run_bind.mp hrun₁
  obtain ⟨_, s₂, hwrite, hrun₃⟩ := run_bind.mp hrun₂
  have hrun₄ := run_get_bind.mp hrun₃
  obtain ⟨hs₂, hspares, -⟩ := newInode_ok hs (Whole.encode ..) hs.nextInode_fresh.2
    (run_wrapErr.mp hinsert) (run_wrapErr.mp hwrite)
  obtain ⟨hs', hspares'⟩ := steps_enter s₂ () s' hs₂ hrun₄
  exact ⟨hs', (hspares.mono left_subset).trans (hspares'.mono right_subset)⟩

theorem createDir_ok {now : Timespec} {parentIno perm : Nat} {name : Name} (hs : Intact s)
    (hrun : createDir mapBackend now parentIno name perm s = .ok () s') :
    Intact s' ∧ Spares {nextInodeNum mapBackend s, parentIno} s s' := by
  have hrun₁ := run_get_bind.mp hrun
  exact (Steps.bind (Steps.step (steps_insert (inodeKey_not_file _)
    fun _ => ⟨Set.mem_insert _ _, Whole.encode ..⟩)) fun _ => Steps.get.bind fun _ => steps_enter.mono right_subset)
    _ () s' hs hrun₁

/-! ## 4. Overwriting -/

/-- What `overwriteFile` makes of an INODE_ITEM. -/
def overwritten (sb : Superblock) (now : Timespec) (data d : Bytes) : Bytes :=
  let d := putLE 8 inodeOffSize data.length d
  let d := putLE 8 inodeOffNBytes (classifyExtent data sb.sectorSize) d
  let d := bumpInodeTransIDSequence (sb.generation + 1) d
  writeBtrfsTimespec inodeOffMTime now (writeBtrfsTimespec inodeOffCTime now d)

/-- The steps of an overwrite; the edit of the inode may have failed. -/
theorem overwriteFile_inv {now : Timespec} {ino : Nat} {data : Bytes}
    (hrun : overwriteFile mapBackend now ino data s = .ok () s') :
    ∃ s₂ s₃, mapBackend.cowDeletePrefix ino typeExtentData (freeInodeExtents mapBackend ino s) =
        .ok () s₂ ∧
      writeExtents mapBackend ino data (s.sb.generation + 1) s₂ = .ok () s₃ ∧
      mapBackend.updateFsTreeRoot (final (editInode mapBackend ino "" ""
        (fun s d => overwritten s.sb now data d) s₃)) = .ok () s' := by
  have hrun₁ := run_get_bind.mp hrun
  obtain ⟨_, s₁, hfree, hrun₂⟩ := run_bind.mp hrun₁
  obtain rfl := run_modify.mp hfree
  obtain ⟨_, s₂, hclear, hrun₃⟩ := run_bind.mp hrun₂
  obtain ⟨_, s₃, hwrite, hrun₄⟩ := run_bind.mp hrun₃
  obtain ⟨_, s₄, hedit, hcommit⟩ := run_bind.mp hrun₄
  rw [ignoreError_eq] at hedit
  cases hedit
  exact ⟨s₂, s₃, run_wrapErr.mp hclear, run_wrapErr.mp hwrite, hcommit⟩

theorem overwriteFile_ok {now : Timespec} {ino : Nat} {data : Bytes} (hs : Intact s)
    (hino : HasInode s.records ino) (hrun : overwriteFile mapBackend now ino data s = .ok () s') :
    Intact s' ∧ Spares {ino} s s' := by
  obtain ⟨s₂, s₃, hclear, hwrite, hcommit⟩ := overwriteFile_inv hrun
  obtain ⟨hs₂, hspares₂, hbody, hrec⟩ := clearBody_ok hs hclear
  have hino₂ : HasInode s₂.records ino := by
    rw [hrec, HasInode, Records.find?_removeAll (inPrefix_inodeKey (by decide) ino)]
    exact hino
  obtain ⟨hs₃, hspares₃, -⟩ := writeBody_ok hs₂ hino₂ hbody hwrite
  have hedit : KeepsWhole fun s d => overwritten s.sb now data d := fun s d hd =>
    ((((hd.put 8 inodeOffSize _ (by decide)).put 8 inodeOffNBytes _ (by decide)).bump _).times
      inodeOffCTime now (by decide)).times inodeOffMTime now (by decide)
  obtain ⟨hs₄, hspares₄⟩ := Steps.ignore (steps_editInode hedit)
    (fun _ _ _ h hrun => fails_editInode h hrun) s₃ () _ hs₃ (ignoreError_eq _ _)
  obtain ⟨hs', hspares'⟩ := steps_commit (T := {ino}) _ () s' hs₄ hcommit
  exact ⟨hs', ((hspares₂.trans hspares₃).trans hspares₄).trans hspares'⟩

/-! ## 5. Removing and renaming -/

section pairs

variable {ino parentIno : Nat}

theorem steps_tolerateDelete {objID typ offset : Nat} (format : String)
    (hfile : typ ≠ typeExtentData) (hinode : typ ≠ typeInodeItem) :
    Steps T (tolerateNotFound format (mapBackend.cowDelete ⟨objID, typ, offset⟩)) := by
  refine Steps.tolerate (steps_deleteOther hfile hinode) ?_
  intro s e s' hs hrun
  have hop : mapDelete ⟨objID, typ, offset⟩ s = .error e s' := hrun
  exact fails_mapOp hs hop

theorem steps_tolerateDeletePrefix {objID typ : Nat} (format : String)
    (hfile : typ ≠ typeExtentData) (hinode : typ ≠ typeInodeItem) :
    Steps T (tolerateNotFound format (mapBackend.cowDeletePrefix objID typ)) := by
  refine Steps.tolerate (steps_deletePrefix hfile hinode) ?_
  intro s e s' hs hrun
  have hop : mapDeletePrefix objID typ s = .error e s' := hrun
  exact fails_mapOp hs hop

theorem steps_unlinkInodeOnly (now : Timespec) (name : Name) :
    Steps {ino, parentIno} (unlinkInodeOnly mapBackend now ino parentIno name) := by
  refine Steps.bind (steps_removeDirIndex _ parentIno name) fun _ => ?_
  refine Steps.bind (steps_tolerateDelete _ (by decide) (by decide)) fun _ => ?_
  refine Steps.bind (Steps.step (steps_removeInodeRef ino parentIno name)) fun _ => ?_
  refine Steps.bind ((steps_editInode fun s d hd => ?_).mono left_subset) fun _ => ?_
  · exact ((hd.put 4 inodeOffNLink _ (by decide)).bump _).times inodeOffCTime now (by decide)
  refine Steps.bind (Steps.step ((steps_adjustDirSize parentIno _).mono right_subset)) fun _ => ?_
  refine Steps.bind (Steps.step ((steps_adjustDirNlink now parentIno 0).mono right_subset))
    fun _ => ?_
  exact steps_commit

/-- Leave the directory: entries, size and times, and the commit. -/
theorem steps_leave (now : Timespec) (name : Name) (e₁ e₂ e₃ e₄ : String) :
    Steps {ino, parentIno} (do
      removeDirIndex mapBackend e₁ parentIno name
      tolerateNotFound e₂ (mapBackend.cowDelete ⟨parentIno, typeDirItem, hashDirName name⟩)
      step e₃ [] (adjustDirSize mapBackend parentIno (-dirEntrySizeDelta name))
      step e₄ [] (touchDir mapBackend now parentIno)
      mapBackend.updateFsTreeRoot) := by
  refine Steps.bind (steps_removeDirIndex _ parentIno name) fun _ => ?_
  refine Steps.bind (steps_tolerateDelete _ (by decide) (by decide)) fun _ => ?_
  refine Steps.bind (Steps.step ((steps_adjustDirSize parentIno _).mono right_subset)) fun _ => ?_
  refine Steps.bind (Steps.step ((steps_adjustDirNlink now parentIno 0).mono right_subset))
    fun _ => ?_
  exact steps_commit

theorem steps_dropInode (now : Timespec) (name : Name) :
    Steps {ino, parentIno} (dropInode mapBackend now ino parentIno name) := by
  intro s a s' hs hrun
  obtain ⟨_, s₁, hfree, hrun₁⟩ := run_bind.mp hrun
  obtain rfl := run_modify.mp hfree
  obtain ⟨_, s₂, hclear, hrun₂⟩ := run_bind.mp hrun₁
  obtain ⟨_, s₃, hxattr, hrun₃⟩ := run_bind.mp hrun₂
  obtain ⟨_, s₄, href, hrun₄⟩ := run_bind.mp hrun₃
  obtain ⟨_, s₅, hitem, hrun₅⟩ := run_bind.mp hrun₄
  obtain ⟨hs₂, hspares₂, hbody, -⟩ := clearBody_ok hs (run_wrapErr.mp hclear)
  -- two steps that concern no inode at all: the body stays empty
  obtain ⟨hs₃, hspares₃⟩ := steps_tolerateDeletePrefix (T := ∅) _ (by decide) (by decide) s₂ _ s₃
    hs₂ hxattr
  obtain ⟨hs₄, hspares₄⟩ := steps_tolerateDelete (T := ∅) _ (by decide) (by decide) s₃ _ s₄ hs₃ href
  have hquiet := hspares₃.trans hspares₄
  have hbody₄ : s₄.body ino = [] := (hquiet.body ino (Set.notMem_empty _)).trans hbody
  obtain ⟨hs₅, hspares₅, -⟩ := dropInodeItem_ok hs₄ hbody₄ (run_wrapErr.mp hitem)
  obtain ⟨hs', hspares'⟩ := steps_leave now name _ _ _ _ s₅ a s' hs₅ hrun₅
  have hfirst := (hspares₂.trans (hquiet.mono (Set.empty_subset _))).trans hspares₅
  exact ⟨hs', (hfirst.mono left_subset).trans hspares'⟩

theorem steps_removeInode (now : Timespec) (name : Name) :
    Steps {ino, parentIno} (removeInode mapBackend now ino parentIno name) := by
  intro s a s' hs hrun
  rcases removeInode_inv hrun with ⟨-, hunlink⟩ | ⟨-, hdrop⟩
  · exact steps_unlinkInodeOnly now name s a s' hs hunlink
  · exact steps_dropInode now name s a s' hs hdrop

end pairs

theorem Steps.forM {α : Type} {l : List α} {g : α → FileM MapFs Unit}
    (h : ∀ a ∈ l, Steps T (g a)) : Steps T (l.forM g) := by
  induction l with
  | nil => exact Steps.pure ()
  | cons a l ih =>
    refine Steps.bind (h a List.mem_cons_self) fun _ => ?_
    exact ih fun b hb => h b (List.mem_cons_of_mem _ hb)

theorem steps_purgeDirContents (now : Timespec) (depth dirIno : Nat) :
    Steps Set.univ (purgeDirContents mapBackend now depth dirIno) := by
  induction depth generalizing dirIno with
  | zero => exact Steps.throw _
  | succ depth ih =>
    refine Steps.bind Steps.get fun s => Steps.forM fun e _ => ?_
    have hremove : Steps Set.univ (removeInode mapBackend now e.inode dirIno e.name) :=
      (steps_removeInode now e.name).mono (Set.subset_univ _)
    by_cases hdir : e.fileType = ftDir
    · simp only [hdir, if_true]
      refine Steps.bind (ih e.inode) fun _ => ?_
      exact Steps.bind (Steps.step (steps_deletePrefix (by decide) (by decide))) fun _ => hremove
    · simp only [hdir, if_false]
      exact hremove

theorem steps_moveEntry (now : Timespec) (srcObjID srcFtype oldParentIno newParentIno : Nat)
    (oldName newName : Name) :
    Steps {oldParentIno, newParentIno} (moveEntry mapBackend now srcObjID srcFtype oldParentIno
      newParentIno oldName newName) := by
  refine Steps.bind (steps_removeDirIndex _ oldParentIno oldName) fun _ => ?_
  refine Steps.bind (steps_tolerateDelete _ (by decide) (by decide)) fun _ => ?_
  refine Steps.bind (Steps.step (steps_removeInodeRef srcObjID oldParentIno oldName)) fun _ => ?_
  refine Steps.bind Steps.get fun _ => ?_
  refine Steps.bind (steps_insertDirEntry _ _ _ newParentIno _ newName _) fun _ => ?_
  refine Steps.bind (Steps.step (steps_appendInodeRef srcObjID newParentIno _ newName)) fun _ => ?_
  refine Steps.bind (Steps.step ((steps_adjustDirSize oldParentIno _).mono left_subset)) fun _ => ?_
  refine Steps.bind (Steps.step ((steps_adjustDirSize newParentIno _).mono right_subset)) fun _ => ?_
  refine Steps.bind (Steps.step ((steps_adjustDirNlink now oldParentIno 0).mono left_subset))
    fun _ => ?_
  have hcommit : Steps {oldParentIno, newParentIno} mapBackend.updateFsTreeRoot := steps_commit
  by_cases hsame : oldParentIno ≠ newParentIno
  · rw [if_pos hsame]
    exact Steps.bind (Steps.step ((steps_adjustDirNlink now newParentIno 0).mono right_subset))
      fun _ => hcommit
  · rw [if_neg hsame]
    exact hcommit

/-! ## 6. Editing -/

theorem steps_updateInodeMetadata (now : Timespec) (ino : Nat) {mutator : MapFs → Bytes → Bytes}
    (hmutator : KeepsWhole mutator) :
    Steps {ino} (updateInodeMetadata mapBackend now ino mutator) := by
  refine Steps.bind (steps_editInode fun s d hd => ?_) fun _ => steps_commit
  exact ((hmutator s d hd).bump _).times inodeOffCTime now (by decide)

theorem steps_addLink (now : Timespec) (src : InodeItem) (parentIno : Nat) (name : Name) :
    Steps {src.num, parentIno} (addLink mapBackend now src parentIno name) := by
  refine Steps.bind Steps.get fun _ => ?_
  refine Steps.bind (steps_insertDirEntry _ _ _ parentIno _ name _) fun _ => ?_
  refine Steps.bind (Steps.step (steps_appendInodeRef src.num parentIno _ name)) fun _ => ?_
  refine Steps.bind ((steps_editInode fun s d hd => ?_).mono left_subset) fun _ => ?_
  · exact ((hd.put 4 inodeOffNLink _ (by decide)).bump _).times inodeOffCTime now (by decide)
  refine Steps.bind (Steps.step ((steps_adjustDirSize parentIno _).mono right_subset)) fun _ => ?_
  exact steps_commit

/-! ## 7. Truncating -/

section trim

variable {d : Bytes} {kept : Nat}

theorem extentType_take (hlen : extDataHdrSize ≤ d.length) :
    extentType (d.take (extDataHdrSize + kept)) = extentType d := by
  have hdr : extDataHdrSize = 21 := rfl
  have hoff : extDataOffType = 20 := rfl
  rw [extentType, extentType, if_neg (by rw [List.length_take]; omega), if_neg (by omega), leAt, leAt,
    List.drop_take, List.take_take, Nat.min_eq_left (by omega)]

/-- What a trimmed extent keeps: its length and type, and the fields other than `ram_bytes` and
    `num_bytes`. -/
theorem trimExtent_regular (kept : Nat) (hreg : extentType d = some extentDataRegular)
    (hsize : extDataRegularSize ≤ d.length) :
    (trimExtent kept d).length = d.length ∧
      extentType (trimExtent kept d) = some extentDataRegular ∧
      ∀ w off, (off + w ≤ extDataOffRamBytes ∨ extDataOffRamBytes + 8 ≤ off) →
        off + w ≤ extDataOffNumBytes → leAt w off (trimExtent kept d) = leAt w off d := by
  have hram : extDataOffRamBytes = 8 := rfl
  have hnum : extDataOffNumBytes = 45 := rfl
  have hreg53 : extDataRegularSize = 53 := rfl
  have hneq : extentType d ≠ some extentDataInline := by rw [hreg]; decide
  have hdlen : (putLE 8 extDataOffRamBytes kept d).length = d.length := length_putLE (by omega)
  have hfield : ∀ w off, (off + w ≤ extDataOffRamBytes ∨ extDataOffRamBytes + 8 ≤ off) →
      off + w ≤ extDataOffNumBytes → leAt w off (trimExtent kept d) = leAt w off d := by
    intro w off hlow hhigh
    rw [trimExtent, if_neg hneq, putLE, putLE,
      leAt_putAt_of_disjoint (by rw [length_leBytes, length_putAt (by rw [length_leBytes]; omega)]; omega)
        (Or.inl (by omega)),
      leAt_putAt_of_disjoint (by rw [length_leBytes]; omega) (by rw [length_leBytes]; omega)]
  have hlen' : (trimExtent kept d).length = d.length := by
    rw [trimExtent, if_neg hneq, length_putLE (by omega), hdlen]
  refine ⟨hlen', ?_, hfield⟩
  rw [← hreg, extentType, extentType, hlen', hfield 1 extDataOffType (by decide) (by decide)]

/-- A trimmed item keeps its type and its extent. -/
theorem trimExtent_shape (hd : ExtentShape d) (hlen : extDataHdrSize ≤ d.length)
    (hkept : ∀ len, extentLength d = some len → kept ≤ len) :
    ExtentShape (trimExtent kept d) ∧
      ∀ sb, extentSpan sb extentDataRegular (trimExtent kept d) = extentSpan sb extentDataRegular d := by
  rcases hd with hinline | ⟨hreg, hsize, hcomp, hplaced⟩
  · have hdr : extDataHdrSize = 21 := rfl
    have hoff : extDataOffType = 20 := rfl
    have hram : extDataOffRamBytes = 8 := rfl
    have htake : extDataHdrSize ≤ (d.take (extDataHdrSize + kept)).length := by
      rw [List.length_take]
      omega
    have hcut : extentType (d.take (extDataHdrSize + kept)) = extentType d := extentType_take hlen
    have htype : extentType (trimExtent kept d) = some extentDataInline := by
      rw [← hinline, ← hcut, trimExtent, if_pos hinline, extentType,
        extentType, length_putLE (by omega), putLE,
        leAt_putAt_of_disjoint (by rw [length_leBytes]; omega) (by rw [length_leBytes]; omega)]
    refine ⟨Or.inl htype, fun sb => ?_⟩
    rw [extentSpan, extentSpan, htype, hinline, if_pos (by decide), if_pos (by decide)]
  · obtain ⟨hlen', htype, hfield⟩ := trimExtent_regular kept hreg hsize
    have hdisk := hfield 8 extDataOffDiskBytenr (by decide) (by decide)
    have hdiskNum := hfield 8 extDataOffDiskNumBytes (by decide) (by decide)
    have hcomp' := hfield 1 extDataOffCompression (by decide) (by decide)
    have hoffset := hfield 8 extDataOffOffset (by decide) (by decide)
    refine ⟨Or.inr ⟨htype, by omega, hcomp'.trans hcomp, ?_⟩, fun sb => ?_⟩
    · intro hne
      rw [hdisk] at hne
      obtain ⟨hzero, hle⟩ := hplaced hne
      refine ⟨hoffset.trans hzero, ?_⟩
      have hlength : extentLength d = some (leAt 8 extDataOffNumBytes d) := by
        rw [extentLength, hreg]
        simp only [show extentDataRegular ≠ extentDataInline by decide, if_false,
          not_lt.mpr hsize]
      have hkle := hkept _ hlength
      have hnum : extDataOffNumBytes ≤ extDataRegularSize := by decide
      have hram : extDataOffRamBytes + 8 ≤ extDataRegularSize := by decide
      have hwrap : leAt 8 extDataOffNumBytes (trimExtent kept d) ≤ kept := by
        rw [trimExtent, if_neg (by rw [hreg]; decide),
          leAt_putLE_mod (by rw [length_putLE (by omega)]; omega)]
        exact Nat.mod_le _ _
      rw [hdiskNum]
      omega
    · rw [extentSpan, extentSpan, htype, hreg, hlen', hdisk, hdiskNum]

end trim

/-- Replacing a payload by one with the same extent leaves the extents as they are. -/
theorem itemSpans_setFirst {sb : Superblock} {k : Key} {v : Bytes} {l : List (Key × Bytes)}
    (h : ∀ e ∈ l, e.1 = k → extentSpan sb extentDataRegular v = extentSpan sb extentDataRegular e.2) :
    itemSpans sb (Records.setFirst k v l) = itemSpans sb l := by
  induction l with
  | nil => rfl
  | cons a l ih =>
    rw [Records.setFirst]
    split_ifs with ha
    · simp only [itemSpans, spansOf, List.map_cons, List.filterMap_cons,
        h a List.mem_cons_self ha]
    · have hrest := ih fun e he => h e (List.mem_cons_of_mem _ he)
      simp only [itemSpans, spansOf, List.map_cons, List.filterMap_cons] at hrest ⊢
      rw [hrest]

/-- A step that changes items of the body of inode `ino` and nothing else of the records. -/
structure BodyStep (ino : Nat) (s s' : MapFs) : Prop where
  churned : Churned s s'
  entries : SameEntries s.records s'.records
  inodes : ∀ n, s'.inodeAt n = s.inodeAt n
  bodies : ∀ n, n ≠ ino → s'.body n = s.body n

/-- What is left of an item when the file is cut to `newSize` bytes. -/
def cutItem (newSize : Nat) (e : Key × Bytes) : Option (Key × Bytes) :=
  match extentLength e.2 with
  | none => some e
  | some len =>
    if e.1.offset + len ≤ newSize then some e
    else if newSize ≤ e.1.offset then none
    else some (e.1, trimExtent (newSize - e.1.offset) e.2)

section cut

variable {ino newSize kept : Nat} {e : Key × Bytes} {lo hi items : List (Key × Bytes)}

theorem BodyStep.refl (hs : SpaceOk s) : BodyStep ino s s :=
  ⟨Churned.refl hs, SameEntries.refl _, fun _ => rfl, fun _ _ => rfl⟩

theorem BodyStep.trans (h : BodyStep ino s s₁) (h' : BodyStep ino s₁ s') : BodyStep ino s s' :=
  ⟨h.churned.trans h'.churned, h.entries.trans h'.entries,
    fun n => (h'.inodes n).trans (h.inodes n), fun n hn => (h'.bodies n hn).trans (h.bodies n hn)⟩

theorem BodyStep.spares (h : BodyStep ino s s') (hs : Intact s) : Spares {ino} s s' := by
  refine ⟨h.churned.geometry, h.churned.starved, h.bodies, fun i _ => h.inodes i, ?_⟩
  intro i _ p hp
  have hin := hs.body_inUse i
  exact h.churned.cells p (Set.disjoint_left.mp hin.out hp) (Set.disjoint_left.mp hin.apart_super hp)

/-- Fewer items, or other payloads that stand for the same extents, leave the state intact. -/
theorem BodyStep.intact (h : BodyStep ino s s') (hs : Intact s)
    (hspans : (itemSpans s.sb s'.files).Sublist (itemSpans s.sb s.files))
    (hshape : ∀ e ∈ s'.files, ExtentShape e.2)
    (hkeys : (s'.files.map Prod.fst).Sublist (s.files.map Prod.fst))
    (hitems : ∀ e ∈ s'.records.list, ItemOk s.sb e) : Intact s' := by
  have hch := h.churned
  refine ⟨hch.ok, ?_, ?_, hshape, ?_, ?_, ?_⟩
  · rw [hch.pool_eq]
    exact hs.super_apart
  · rw [hch.itemSpans]
    exact (hs.inUse.sublist hspans).churned hch
  · have hold : (s.files.map Prod.fst).Pairwise (· ≠ ·) := List.pairwise_map.mpr hs.distinct
    exact List.pairwise_map.mp (hold.sublist hkeys)
  · intro e he
    obtain ⟨e', he', heq⟩ := List.mem_map.mp (hkeys.subset (List.mem_map_of_mem he))
    rw [← heq]
    exact (hs.owned e' he').of_inodeAt (h.inodes _)
  · intro e he
    exact (hitems e he).geometry hch.geometry

theorem inPrefix_of_mem_body {ino : Nat} {e : Key × Bytes} (he : e ∈ s.body ino) :
    e.1.objID = ino ∧ e.1.typ = typeExtentData := by
  rw [MapFs.body, Records.keep, List.mem_filter, inPrefix, decide_eq_true_eq] at he
  exact he.2

theorem not_inPrefix_of_ne {i typ : Nat} {k : Key} (h : i ≠ k.objID) : inPrefix i typ k = false := by
  simp only [inPrefix, decide_eq_false_iff_not, not_and]
  exact fun heq => absurd heq.symm h

theorem bodyStep_delete (hs : Intact s) (hbody : s.body ino = lo ++ e :: hi)
    (hlo : ∀ x ∈ lo, x.1 ≠ e.1) (hrun : mapBackend.cowDelete e.1 s = .ok () s') :
    Intact s' ∧ BodyStep ino s s' ∧ s'.body ino = lo ++ hi := by
  obtain ⟨hch, hrec, -⟩ := mapDelete_ok hs.space hrun
  obtain ⟨hobj, htyp⟩ := inPrefix_of_mem_body (hbody ▸ List.mem_append_right _ List.mem_cons_self)
  have hpre : inPrefix ino typeExtentData e.1 = true := decide_eq_true ⟨hobj, htyp⟩
  have hsub : s'.files.Sublist s.files := by
    rw [MapFs.files, hrec]
    exact List.Sublist.filter _ List.eraseP_sublist
  have hstep : BodyStep ino s s' := by
    refine ⟨hch, ?_, fun n => ?_, fun n hn => ?_⟩
    · rw [hrec]
      exact SameEntries.erase (by rw [htyp]; decide) (by rw [htyp]; decide)
    · rw [MapFs.inodeAt, hrec]
      exact Records.find?_erase_of_ne (ne_inodeKey (by rw [htyp]; decide) n)
    · rw [MapFs.body, hrec]
      exact Records.keep_erase_of_false (not_inPrefix_of_ne (hobj ▸ hn))
  refine ⟨hstep.intact hs (itemSpans_sublist _ hsub) (fun a ha => hs.shape a (hsub.subset ha))
    (hsub.map _) ?_, hstep, ?_⟩
  · intro a ha
    rw [hrec] at ha
    exact hs.items a (Records.mem_erase ha)
  · rw [MapFs.body] at hbody
    rw [MapFs.body, hrec, Records.keep_erase hpre, hbody,
      List.eraseP_append_right _ fun x hx => by simpa using hlo x hx,
      List.eraseP_cons_of_pos (by simp)]

theorem bodyStep_trim (hs : Intact s) (hbody : s.body ino = lo ++ e :: hi)
    (hlo : ∀ x ∈ lo, x.1 ≠ e.1) (hlen : extDataHdrSize ≤ e.2.length)
    (hkept : ∀ len, extentLength e.2 = some len → kept ≤ len)
    (hrun : mapBackend.cowUpdate e.1 (trimExtent kept e.2) s = .ok () s') :
    Intact s' ∧ BodyStep ino s s' ∧ s'.body ino = lo ++ (e.1, trimExtent kept e.2) :: hi := by
  obtain ⟨hch, hrec, hfit, -⟩ := mapUpdate_ok hs.space hrun
  have he : e ∈ s.body ino := hbody ▸ List.mem_append_right _ List.mem_cons_self
  obtain ⟨hobj, htyp⟩ := inPrefix_of_mem_body he
  have hpre : inPrefix ino typeExtentData e.1 = true := decide_eq_true ⟨hobj, htyp⟩
  have hefile : e ∈ s.files := (body_sublist_files s ino).subset he
  obtain ⟨hshape, hspan⟩ := trimExtent_shape (hs.shape e hefile) hlen hkept
  have hfiles : s'.files = Records.setFirst e.1 (trimExtent kept e.2) s.files := by
    rw [MapFs.files, hrec]
    exact Records.keep_update (by rw [isFileKey, htyp]; rfl)
  have hspans : itemSpans s.sb s'.files = itemSpans s.sb s.files := by
    rw [hfiles]
    refine itemSpans_setFirst fun a ha heq => ?_
    -- keys are distinct, so the payload replaced is the one that was trimmed
    rw [List.inj_on_of_nodup_map (List.pairwise_map.mpr hs.distinct) ha hefile heq]
    exact hspan s.sb
  have hkeys : s'.files.map Prod.fst = s.files.map Prod.fst := by
    rw [hfiles, Records.map_fst_setFirst]
  have hstep : BodyStep ino s s' := by
    refine ⟨hch, ?_, fun n => ?_, fun n hn => ?_⟩
    · rw [hrec]
      exact SameEntries.update (by rw [htyp]; decide) (by rw [htyp]; decide)
    · rw [MapFs.inodeAt, hrec]
      exact Records.find?_update_of_ne (ne_inodeKey (by rw [htyp]; decide) n)
    · rw [MapFs.body, hrec]
      exact Records.keep_update_of_false (not_inPrefix_of_ne (hobj ▸ hn))
  refine ⟨hstep.intact hs (hspans ▸ List.Sublist.refl _) ?_ (hkeys ▸ List.Sublist.refl _) ?_,
    hstep, ?_⟩
  · intro a ha
    rw [hfiles] at ha
    rcases Records.mem_setFirst ha with rfl | ha
    · exact hshape
    · exact hs.shape a ha
  · intro a ha
    rw [hrec] at ha
    rcases Records.mem_update ha with rfl | ha
    · exact ⟨hfit, fun h => absurd (htyp.symm.trans h) (by decide)⟩
    · exact hs.items a ha
  · rw [MapFs.body] at hbody
    rw [MapFs.body, hrec, Records.keep_update hpre, hbody]
    exact Records.setFirst_append hlo

theorem extentLength_header {d : Bytes} {len : Nat} (h : extentLength d = some len) :
    extDataHdrSize ≤ d.length := by
  rw [extentLength, extentType] at h
  by_cases hshort : d.length ≤ extDataOffType
  · rw [if_pos hshort] at h
    cases h
  · have hdr : extDataHdrSize = 21 := rfl
    have hoff : extDataOffType = 20 := rfl
    omega

theorem truncateExtent_effect (hs : Intact s) (hbody : s.body ino = lo ++ e :: hi)
    (hlo : ∀ x ∈ lo, x.1 ≠ e.1) (hrun : truncateExtent mapBackend newSize e s = .ok () s') :
    Intact s' ∧ BodyStep ino s s' ∧ s'.body ino = lo ++ ((cutItem newSize e).toList ++ hi) := by
  have hkept : s' = s → cutItem newSize e = some e →
      Intact s' ∧ BodyStep ino s s' ∧ s'.body ino = lo ++ ((cutItem newSize e).toList ++ hi) := by
    rintro rfl hcut
    rw [hcut]
    exact ⟨hs, BodyStep.refl hs.space, hbody⟩
  rw [truncateExtent] at hrun
  cases hlen : extentLength e.2 with
  | none =>
    rw [hlen] at hrun
    obtain ⟨-, rfl⟩ := run_pure.mp hrun
    exact hkept rfl (by simp only [cutItem, hlen])
  | some len =>
    rw [hlen] at hrun
    by_cases hin : e.1.offset + len ≤ newSize
    · simp only [hin, if_true] at hrun
      obtain ⟨-, rfl⟩ := run_pure.mp hrun
      exact hkept rfl (by simp only [cutItem, hlen, if_pos hin])
    simp only [hin, if_false] at hrun
    by_cases hout : newSize ≤ e.1.offset
    · simp only [hout, if_true] at hrun
      simp only [cutItem, hlen, if_neg hin, if_pos hout]
      exact bodyStep_delete hs hbody hlo (run_wrapErr.mp hrun)
    · simp only [hout, if_false] at hrun
      simp only [cutItem, hlen, if_neg hin, if_neg hout]
      refine bodyStep_trim hs hbody hlo (extentLength_header hlen) ?_ (run_wrapErr.mp hrun)
      intro len' hlen'
      obtain rfl : len = len' := Option.some.inj (hlen.symm.trans hlen')
      omega

theorem cutItem_key {x : Key × Bytes} (h : cutItem newSize e = some x) : x.1 = e.1 := by
  rw [cutItem] at h
  cases hlen : extentLength e.2 with
  | none =>
    simp only [hlen, Option.some.injEq] at h
    rw [h]
  | some len =>
    simp only [hlen] at h
    split_ifs at h
    · rw [Option.some.inj h]
    · rw [← Option.some.inj h]

theorem truncateExtents_effect (hs : Intact s) (hbody : s.body ino = lo ++ items)
    (hlo : ∀ x ∈ lo, ∀ y ∈ items, x.1 ≠ y.1) (hdistinct : items.Pairwise fun a b => a.1 ≠ b.1)
    (hrun : items.forM (truncateExtent mapBackend newSize) s = .ok () s') :
    Intact s' ∧ BodyStep ino s s' ∧ s'.body ino = lo ++ items.filterMap (cutItem newSize) := by
  induction items generalizing s lo with
  | nil =>
    obtain rfl := run_forM_nil.mp hrun
    exact ⟨hs, BodyStep.refl hs.space, hbody⟩
  | cons e l ih =>
    obtain ⟨hne, hrest⟩ := List.pairwise_cons.mp hdistinct
    obtain ⟨s₁, hfirst, hloop⟩ := run_forM_cons.mp hrun
    obtain ⟨hs₁, hstep, hbody₁⟩ := truncateExtent_effect hs hbody
      (fun x hx => hlo x hx e List.mem_cons_self) hfirst
    rw [← List.append_assoc] at hbody₁
    have hlo₁ : ∀ x ∈ lo ++ (cutItem newSize e).toList, ∀ y ∈ l, x.1 ≠ y.1 := by
      intro x hx y hy
      rcases List.mem_append.mp hx with hx | hx
      · exact hlo x hx y (List.mem_cons_of_mem _ hy)
      · rw [cutItem_key (Option.mem_toList.mp hx)]
        exact hne y hy
    obtain ⟨hs', hstep', hbody'⟩ := ih hs₁ hbody₁ hlo₁ hrest hloop
    refine ⟨hs', hstep.trans hstep', ?_⟩
    rw [hbody', List.append_assoc, List.filterMap_cons]
    cases cutItem newSize e <;> rfl

theorem collect_body (h : s.body ino ≠ []) :
    mapBackend.collectPrefixItems s ino typeExtentData = .ok (s.body ino) := by
  simp only [mapBackend, mapCollect]
  rw [MapFs.body] at h ⊢
  cases hk : s.records.keep (inPrefix ino typeExtentData) with
  | nil => exact absurd hk h
  | cons e l => rfl

/-- `cutExtents` leaves of the body what `cutItem` leaves of its items. -/
theorem cutExtents_effect (hs : Intact s) (hrun : cutExtents mapBackend ino newSize s = .ok () s') :
    Intact s' ∧ BodyStep ino s s' ∧ s'.body ino = (s.body ino).filterMap (cutItem newSize) := by
  simp only [cutExtents] at hrun
  cases hbody : s.body ino with
  | nil =>
    have hcollect : ∃ e, mapBackend.collectPrefixItems s ino typeExtentData = .error e ∧
        e.is .errNotFound = true := by
      rw [MapFs.body] at hbody
      simp only [mapBackend, mapCollect, hbody]
      exact ⟨_, rfl, rfl⟩
    obtain ⟨e, hcollect, hnf⟩ := hcollect
    simp only [hcollect, hnf, if_true] at hrun
    cases hrun
    exact ⟨hs, BodyStep.refl hs.space, hbody⟩
  | cons e l =>
    rw [collect_body (by rw [hbody]; exact List.cons_ne_nil _ _)] at hrun
    rw [← hbody]
    have hdistinct : (s.body ino).Pairwise fun a b => a.1 ≠ b.1 :=
      hs.distinct.sublist (body_sublist_files s ino)
    have hnone : ∀ x ∈ ([] : List (Key × Bytes)), ∀ y ∈ s.body ino, x.1 ≠ y.1 := by simp
    obtain ⟨hs', hstep, hcut⟩ := truncateExtents_effect hs (List.nil_append _).symm hnone hdistinct
      hrun
    exact ⟨hs', hstep, by rw [hcut, List.nil_append]⟩

theorem steps_cutExtents (ino newSize : Nat) : Steps {ino} (cutExtents mapBackend ino newSize) := by
  intro s a s' hs hrun
  obtain ⟨hs', hstep, -⟩ := cutExtents_effect hs hrun
  exact ⟨hs', hstep.spares hs⟩

end cut

end Btrfs
