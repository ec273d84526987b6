/-
  Btrfs/Progress.lean
  ===================
  **Calls that succeed.**

  A tree operation without traffic asks for no block, and then it fails only over an item
  that is too large or a key that is not there.  A call that makes small items, for inodes
  that exist, succeeds.
-/
import Btrfs.WriteRead

namespace Btrfs

open Lib

variable {s : MapFs} {X : Set Nat} {B : Nat} {now : Timespec}

/-! ## 1. Tree operations -/

/-- No traffic to come, items in leaves, the inodes of `X` there, and no inode number above `B`. -/
structure Roomy (X : Set Nat) (B : Nat) (s : MapFs) : Prop where
  script : s.script = []
  nodeSize : s.sb.nodeSize = fmtNodeSize
  fits : ∀ e ∈ s.records.list, fitsLeaf s.sb e.2 = true
  whole : ∀ ino d, s.inodeAt ino = some d → Whole d
  here : ∀ ino ∈ X, (s.inodeAt ino).isSome
  bound : ∀ e ∈ s.records.list, e.1.typ = typeInodeItem → e.1.objID ≤ B

theorem traffic_of_script (hs : s.script = []) : traffic s = .ok () s := by
  simp only [traffic, hs]
  cases s
  simp only at hs
  subst hs
  rfl

theorem mapOp_of_script {f : Superblock → Records Key Bytes → Except Err (Records Key Bytes)}
    {r : Records Key Bytes} (hs : s.script = []) (hf : f s.sb s.records = .ok r) :
    mapOp f s = .ok () { s with records := r } := by
  simp only [mapOp, hf, traffic_of_script hs]

/-- The room for an item alone in a leaf. -/
def leafRoom : Nat := fmtNodeSize - nodeHdrSize - itemSize

theorem Roomy.fitsLeaf_of_le {d : Bytes} (h : Roomy X B s) (hd : d.length ≤ leafRoom) :
    fitsLeaf s.sb d = true := by
  rw [fitsLeaf, h.nodeSize, decide_eq_true_eq]
  simp only [leafRoom, fmtNodeSize, nodeHdrSize, itemSize] at hd ⊢
  omega

theorem total_insert {k : Key} {d : Bytes} (hd : d.length ≤ leafRoom)
    (hk : k.typ = typeInodeItem → k.objID ≤ B ∧ Whole d) :
    Total (Roomy X B) (mapBackend.cowInsert k d) (Roomy X B) := by
  intro s hs
  have hfit := hs.fitsLeaf_of_le hd
  have hrun : mapInsert k d s = .ok () { s with records := s.records.insert k d } :=
    mapOp_of_script hs.script (if_pos hfit)
  refine ⟨(), { s with records := s.records.insert k d }, hrun, hs.script, hs.nodeSize, ?_, ?_, ?_, ?_⟩
  · intro e he
    rcases Records.mem_insert.mp he with rfl | he
    · exact hfit
    · exact hs.fits e he
  · intro ino d' hd'
    change (s.records.insert k d).find? ⟨ino, typeInodeItem, 0⟩ = some d' at hd'
    by_cases heq : k = ⟨ino, typeInodeItem, 0⟩
    · rw [heq, Records.find?_insert_self, Option.some.injEq] at hd'
      cases hold : s.records.find? ⟨ino, typeInodeItem, 0⟩ with
      | none =>
        rw [hold, Option.getD_none] at hd'
        exact hd' ▸ (hk (by rw [heq])).2
      | some d₀ =>
        rw [hold, Option.getD_some] at hd'
        exact hd' ▸ hs.whole ino d₀ hold
    · rw [Records.find?_insert_of_ne heq] at hd'
      exact hs.whole ino d' hd'
  · intro ino hino
    change ((s.records.insert k d).find? ⟨ino, typeInodeItem, 0⟩).isSome
    by_cases heq : k = ⟨ino, typeInodeItem, 0⟩
    · rw [heq, Records.find?_insert_self]
      rfl
    · rw [Records.find?_insert_of_ne heq]
      exact hs.here ino hino
  · intro e he htyp
    rcases Records.mem_insert.mp he with rfl | he
    · exact (hk htyp).1
    · exact hs.bound e he htyp

theorem total_commit : Total (Roomy X B) mapBackend.updateFsTreeRoot (Roomy X B) := by
  intro s hs
  cases hrun : mapCommit s with
  | error e t =>
    simp only [mapCommit, traffic_of_script hs.script] at hrun
    cases hrun
  | ok u t =>
    refine ⟨(), t, hrun, ?_⟩
    simp only [mapCommit, traffic_of_script hs.script] at hrun
    cases hrun
    exact ⟨hs.script, hs.nodeSize, hs.fits, hs.whole, hs.here, hs.bound⟩

/-- An edit that leaves the length of an INODE_ITEM. -/
theorem total_editInode {ino : Nat} {readErr updateErr : String} {f : MapFs → Bytes → Bytes}
    (hino : ino ∈ X) (hf : ∀ s d, Whole d → Whole (f s d) ∧ (f s d).length = d.length) :
    Total (Roomy X B) (editInode mapBackend ino readErr updateErr f) (Roomy X B) := by
  intro s hs
  obtain ⟨d, hd⟩ := Option.isSome_iff_exists.mp (hs.here ino hino)
  obtain ⟨hwhole, hlen⟩ := hf s d (hs.whole ino d hd)
  have hfind : s.records.find? ⟨ino, typeInodeItem, 0⟩ = some d := hd
  have hfit : fitsLeaf s.sb (f s d) = true := by
    rw [fitsLeaf, hlen]
    exact hs.fits _ (Records.mem_of_find? hfind)
  have hrun : mapUpdate ⟨ino, typeInodeItem, 0⟩ (f s d) s =
      .ok () { s with records := s.records.update ⟨ino, typeInodeItem, 0⟩ (f s d) } :=
    mapOp_of_script hs.script (by rw [hfind, if_neg (by simp), if_pos hfit])
  have hsearch : mapBackend.searchTree s ⟨ino, typeInodeItem, 0⟩ = .ok d := by
    change mapSearch s _ = _
    rw [mapSearch, hfind]
  refine ⟨(), { s with records := s.records.update ⟨ino, typeInodeItem, 0⟩ (f s d) }, ?_, hs.script,
    hs.nodeSize, ?_, ?_, ?_, ?_⟩
  · simp only [editInode, hsearch]
    exact run_wrapErr.mpr hrun
  · intro e he
    rcases Records.mem_update he with rfl | he
    · exact hfit
    · exact hs.fits e he
  · intro i d' hd'
    change (s.records.update _ _).find? ⟨i, typeInodeItem, 0⟩ = some d' at hd'
    by_cases heq : (⟨ino, typeInodeItem, 0⟩ : Key) = ⟨i, typeInodeItem, 0⟩
    · rw [heq, Records.find?_update_self (by rw [← heq, hfind]; rfl), Option.some.injEq] at hd'
      exact hd' ▸ hwhole
    · rw [Records.find?_update_of_ne heq] at hd'
      exact hs.whole i d' hd'
  · intro i hi
    change ((s.records.update _ _).find? ⟨i, typeInodeItem, 0⟩).isSome
    by_cases heq : (⟨ino, typeInodeItem, 0⟩ : Key) = ⟨i, typeInodeItem, 0⟩
    · rw [heq, Records.find?_update_self (by rw [← heq, hfind]; rfl)]
      rfl
    · rw [Records.find?_update_of_ne heq]
      exact hs.here i hi
  · intro e he htyp
    rcases Records.mem_update he with rfl | he
    · exact hs.bound (_, d) (Records.mem_of_find? hfind) rfl
    · exact hs.bound e he htyp

/-! ## 2. Calls -/

section calls

variable {parentIno idxOff : Nat} {name : Name} {e₁ e₂ : String} {args : List ErrArg}

theorem total_insertDirEntry {ino ft : Nat} (hname : name.length ≤ 255) :
    Total (Roomy X B) (insertDirEntry mapBackend e₁ e₂ args parentIno idxOff name
      (encodeDirItem ino typeInodeItem ft name)) (Roomy X B) := by
  have hlen : (encodeDirItem ino typeInodeItem ft name).length ≤ leafRoom := by
    rw [length_encodeDirItem]
    simp only [leafRoom, fmtNodeSize, nodeHdrSize, itemSize, dirItemHdrSize]
    omega
  refine Total.bind (Total.wrapErr (total_insert hlen ?_)) fun _ => Total.wrapErr (total_insert hlen ?_)
  · simp [typeDirIndex, typeInodeItem]
  · simp [typeDirItem, typeInodeItem]

theorem length_encodeInodeRef (idx : Nat) (name : Name) :
    (encodeInodeRef idx name).length = 10 + name.length := by
  simp only [encodeInodeRef, List.length_append, length_leBytes]

theorem total_insertRef {ino : Nat} (hname : name.length ≤ 255) :
    Total (Roomy X B) (mapBackend.cowInsert ⟨ino, typeInodeRef, parentIno⟩ (encodeInodeRef idxOff name))
      (Roomy X B) := by
  refine total_insert ?_ (by simp [typeInodeRef, typeInodeItem])
  rw [length_encodeInodeRef]
  simp only [leafRoom, fmtNodeSize, nodeHdrSize, itemSize]
  omega

theorem total_adjustDirSize {delta : Int} (hparent : parentIno ∈ X) :
    Total (Roomy X B) (adjustDirSize mapBackend parentIno delta) (Roomy X B) := by
  rw [adjustDirSize]
  split_ifs
  · exact Total.pure ()
  · refine total_editInode hparent fun s d hd => ⟨hd.put 8 inodeOffSize _ (by decide), ?_⟩
    exact length_putLE (le_trans (by decide) hd)

/-- Stamps leave the length of an INODE_ITEM. -/
theorem total_touchDir (hparent : parentIno ∈ X) :
    Total (Roomy X B) (touchDir mapBackend now parentIno) (Roomy X B) := by
  refine total_editInode hparent fun s d hd => ?_
  have hlink := hd.put 4 inodeOffNLink ((leAt 4 inodeOffNLink d : Int) + 0).toNat (by decide)
  have hbump := hlink.bump ((mapBackend.sb s).generation + 1)
  have htime := hbump.times inodeOffCTime now (by decide)
  refine ⟨htime.times inodeOffMTime now (by decide), ?_⟩
  rw [length_writeBtrfsTimespec (le_trans (by decide) htime),
    length_writeBtrfsTimespec (le_trans (by decide) hbump), length_bumpInodeTransIDSequence hlink,
    length_putLE (le_trans (by decide) hd)]

theorem nextInodeNum_le (h : Roomy X B s) (hB : rootDirObjID ≤ B) :
    nextInodeNum mapBackend s ≤ B + 1 := by
  have hfold : ∀ (l : List (Key × Bytes)) (m : Nat), m ≤ B →
      (∀ e ∈ l, e.1.typ = typeInodeItem → e.1.objID ≤ B) →
      l.foldl (fun m e => if e.1.typ = typeInodeItem ∧ m < e.1.objID then e.1.objID else m) m ≤ B := by
    intro l
    induction l with
    | nil => exact fun m hm _ => hm
    | cons a l ih =>
      intro m hm hl
      refine ih _ ?_ fun e he => hl e (List.mem_cons_of_mem _ he)
      dsimp only
      split_ifs with hmax
      · exact hl a List.mem_cons_self hmax.1
      · exact hm
  exact Nat.succ_le_succ (hfold s.records.list rootDirObjID hB h.bound)

theorem Roomy.mono (h : Roomy X B s) : Roomy X (B + 1) s :=
  ⟨h.script, h.nodeSize, h.fits, h.whole, h.here, fun e he htyp => (h.bound e he htyp).trans (by omega)⟩

theorem length_encodeInodeItem (size mode generation nbytes nlink : Nat) (now : Timespec)
    (hmode : mode < 2 ^ 16) (hnlink : nlink < 2 ^ 32) :
    (encodeInodeItem size mode generation nbytes nlink now).length = inodeItemSize :=
  (Decodes.encode_mod 0 size generation nbytes now hmode hnlink).length_eq

/-- `createDir` under a short name in a directory that exists. -/
theorem total_createDir {perm : Nat} (hB : rootDirObjID ≤ B) (hparent : parentIno ∈ X)
    (hname : name.length ≤ 255) :
    Total (Roomy X B) (createDir mapBackend now parentIno name perm) (Roomy X (B + 1)) := by
  have hmode : dirMode perm < 2 ^ 16 :=
    Nat.or_lt_two_pow (by decide) (lt_of_le_of_lt Nat.and_le_right (by decide))
  refine Total.of_get fun s hs => Total.weaken ?_ fun t ht => ht.mono
  have hnum := nextInodeNum_le hs hB
  refine Total.bind (Total.wrapErr (total_insert ?_ fun _ => ⟨hnum, Whole.encode ..⟩)) fun _ => ?_
  · rw [length_encodeInodeItem _ _ _ _ _ _ hmode (by decide)]
    decide
  refine Total.of_get fun t _ => Total.bind (total_insertDirEntry hname) fun _ => ?_
  refine Total.bind (Total.wrapErr (total_insertRef hname)) fun _ => ?_
  refine Total.bind (Total.wrapErr (total_adjustDirSize hparent)) fun _ => ?_
  exact Total.bind (Total.wrapErr (total_touchDir hparent)) fun _ => total_commit

/-- `appendInodeRef` for an inode that had no name in the directory. -/
theorem total_appendInodeRef {ino : Nat} (hname : name.length ≤ 255) :
    Total (fun s => Roomy X B s ∧ s.records.find? ⟨ino, typeInodeRef, parentIno⟩ = none)
      (appendInodeRef mapBackend ino parentIno idxOff name) (Roomy X B) := by
  rintro s ⟨hs, hnone⟩
  have hsearch : ∃ e, mapBackend.searchTree s ⟨ino, typeInodeRef, parentIno⟩ = .error e := by
    change ∃ e, mapSearch s _ = .error e
    rw [mapSearch, hnone]
    exact ⟨_, rfl⟩
  obtain ⟨e, he⟩ := hsearch
  have hinsert : Total (Roomy X B) (mapBackend.cowInsert ⟨ino, typeInodeRef, parentIno⟩
    (encodeInodeRef idxOff name)) (Roomy X B) := total_insertRef hname
  obtain ⟨_, s', hrun, hs'⟩ := hinsert s hs
  refine ⟨(), s', ?_, hs'⟩
  simp only [appendInodeRef, he]
  exact run_wrapErr.mpr hrun

/-- `addLink` of an inode under a short name in a directory where it had none. -/
theorem total_addLink {src : InodeItem} (hsrc : src.num ∈ X) (hparent : parentIno ∈ X)
    (hname : name.length ≤ 255) :
    Total (fun s => Roomy X B s ∧ s.records.find? ⟨src.num, typeInodeRef, parentIno⟩ = none)
      (addLink mapBackend now src parentIno name) (Roomy X B) := by
  refine Total.of_get fun s ⟨hs, hnone⟩ => Total.bind (Q := fun t => Roomy X B t ∧
    t.records.find? ⟨src.num, typeInodeRef, parentIno⟩ = none) ?_ fun _ => ?_
  · rintro t ⟨ht, htnone⟩
    obtain ⟨_, t', hrun, ht'⟩ := total_insertDirEntry hname t ht
    refine ⟨_, t', hrun, ht', ?_⟩
    obtain ⟨_, t₁, hindex, hitem⟩ := run_bind.mp hrun
    rw [(insert_effect (run_wrapErr.mp hitem)).2.1, Records.find?_insert_of_ne (by simp [typeDirItem, typeInodeRef]),
      (insert_effect (run_wrapErr.mp hindex)).2.1, Records.find?_insert_of_ne (by simp [typeDirIndex, typeInodeRef])]
    exact htnone
  refine Total.bind (Total.wrapErr (total_appendInodeRef hname)) fun _ => ?_
  refine Total.bind (total_editInode hsrc fun s d hd => ?_) fun _ => ?_
  · have hlink := hd.put 4 inodeOffNLink (leAt 4 inodeOffNLink d + 1) (by decide)
    have hbump := hlink.bump ((mapBackend.sb s).generation + 1)
    refine ⟨hbump.times inodeOffCTime now (by decide), ?_⟩
    dsimp only
    rw [length_writeBtrfsTimespec (le_trans (by decide) hbump), length_bumpInodeTransIDSequence hlink,
      length_putLE (le_trans (by decide) hd)]
  exact Total.bind (Total.wrapErr (total_adjustDirSize hparent)) fun _ => total_commit

end calls

end Btrfs
