/-
  Btrfs/Prune.lean
  ================
  **What a recursive removal may touch.**

  `DeleteDir` follows the entries below a directory, whatever they lead to, and removes as
  it goes.  Nothing is entered meanwhile, so every entry it meets was there at the start,
  and a set of inodes that the entries do not lead out of bounds what it touches, also
  where it fails half-way.  Outside of the set only the entry of the directory goes, and
  the INODE_ITEM above it is written.
-/
import Btrfs.Confined

namespace Btrfs

open Lib

variable {s s' s₀ : MapFs} {P Q : Key → Prop} {ino dir : Nat} {now : Timespec} {name : Name}

/-! ## 1. Removals from a set of items -/

/-- Every item was there, up to its payload; an entry is as it was. -/
def Within (s₀ s : MapFs) : Prop :=
  ∀ x ∈ s.records.list, ∃ d, (x.1, d) ∈ s₀.records.list ∧ (x.1.typ = typeDirIndex → d = x.2)

theorem Within.refl (s : MapFs) : Within s s := fun x hx => ⟨x.2, hx, fun _ => rfl⟩

/-- Items with keys in `Q` may go and items with keys in `P` may change, as long as there is nothing
    that was not there at the start. -/
def Prunes (s₀ : MapFs) (P Q : Key → Prop) (s s' : MapFs) : Prop :=
  Within s₀ s → Within s₀ s' ∧ (∀ x : Key × Bytes, ¬ P x.1 → (x ∈ s'.records.list ↔ x ∈ s.records.list)) ∧
    ∀ k, ¬ Q k → (∃ d, (k, d) ∈ s.records.list) → ∃ d, (k, d) ∈ s'.records.list

instance : IsPreorder MapFs (Prunes s₀ P Q) where
  refl _ h := ⟨h, fun _ _ => Iff.rfl, fun _ _ => id⟩
  trans _ _ _ h h' hs := by
    obtain ⟨hs₁, hkept, hkeys⟩ := h hs
    obtain ⟨hs₂, hkept', hkeys'⟩ := h' hs₁
    exact ⟨hs₂, fun x hx => (hkept' x hx).trans (hkept x hx), fun k hk hd => hkeys' k hk (hkeys k hk hd)⟩

theorem Prunes.of_records (h : s'.records = s.records) : Prunes s₀ P Q s s' := by
  intro hs
  rw [Within, h]
  exact ⟨hs, fun _ _ => Iff.rfl, fun _ _ => id⟩

theorem prunes_mapOp {f : Superblock → Records Key Bytes → Except Err (Records Key Bytes)}
    (hf : ∀ sb r r', f sb r = .ok r' →
      (∀ x ∈ r'.list, ∃ d, (x.1, d) ∈ r.list ∧ (x.1.typ = typeDirIndex → d = x.2)) ∧
      (∀ x : Key × Bytes, ¬ P x.1 → (x ∈ r'.list ↔ x ∈ r.list)) ∧
      ∀ k, ¬ Q k → (∃ d, (k, d) ∈ r.list) → ∃ d, (k, d) ∈ r'.list) :
    Always (Prunes s₀ P Q) (mapOp f) := by
  intro s
  cases hrun : mapOp f s with
  | error e s' => exact Prunes.of_records (mapOp_error_effect hrun).2
  | ok u s' =>
    obtain ⟨hsub, hkept, hkeys⟩ := hf _ _ _ (mapOp_effect hrun).2
    refine fun hs => ⟨fun x hx => ?_, hkept, hkeys⟩
    obtain ⟨d, hd, hsame⟩ := hsub x hx
    obtain ⟨d₀, hd₀, hsame₀⟩ := hs _ hd
    exact ⟨d₀, hd₀, fun htyp => (hsame₀ htyp).trans (hsame htyp)⟩

section ops

variable {k : Key} {d : Bytes}

theorem prunes_delete (hQP : ∀ k, Q k → P k) (hk : Q k) :
    Always (Prunes s₀ P Q) (mapBackend.cowDelete k) := by
  change Always _ (mapDelete k)
  unfold mapDelete
  refine prunes_mapOp fun sb r r' hf => ?_
  split_ifs at hf
  rw [← Except.ok.inj hf]
  have hne : ∀ {x : Key × Bytes}, x.1 ≠ k → x ∈ r.list → x ∈ (r.erase k).list := by
    intro x hx hmem
    exact (List.mem_eraseP_of_neg (by simpa using hx)).mpr hmem
  refine ⟨fun x hx => ⟨x.2, Records.mem_erase hx, fun _ => rfl⟩, fun x hx => ?_, ?_⟩
  · exact ⟨Records.mem_erase, hne fun heq => hx (heq ▸ hQP k hk)⟩
  · rintro k' hk' ⟨d, hd⟩
    refine ⟨d, hne ?_ hd⟩
    rintro rfl
    exact hk' hk

theorem prunes_deletePrefix {objID typ : Nat} (hQP : ∀ k, Q k → P k) (hk : ∀ off, Q ⟨objID, typ, off⟩) :
    Always (Prunes s₀ P Q) (mapBackend.cowDeletePrefix objID typ) := by
  change Always _ (mapDeletePrefix objID typ)
  unfold mapDeletePrefix
  refine prunes_mapOp fun sb r r' hf => ?_
  rw [← Except.ok.inj hf]
  have hne : ∀ {x : Key × Bytes}, ¬ Q x.1 → x ∈ r.list → x ∈ (r.removeAll (inPrefix objID typ)).list := by
    intro x hx hmem
    refine Records.mem_removeAll.mpr ⟨hmem, ?_⟩
    rw [inPrefix, decide_eq_false_iff_not]
    rintro ⟨rfl, rfl⟩
    exact hx (hk x.1.offset)
  refine ⟨fun x hx => ⟨x.2, (Records.mem_removeAll.mp hx).1, fun _ => rfl⟩, fun x hx => ?_, ?_⟩
  · exact ⟨fun hmem => (Records.mem_removeAll.mp hmem).1, hne fun hQ => hx (hQP _ hQ)⟩
  · rintro k' hk' ⟨d, hd⟩
    exact ⟨d, hne hk' hd⟩

theorem prunes_update (hk : P k) (htyp : k.typ ≠ typeDirIndex) :
    Always (Prunes s₀ P Q) (mapBackend.cowUpdate k d) := by
  change Always _ (mapUpdate k d)
  unfold mapUpdate
  refine prunes_mapOp fun sb r r' hf => ?_
  split_ifs at hf with hnone
  rw [← Except.ok.inj hf]
  obtain ⟨d₀, hd₀⟩ : ∃ d₀, r.find? k = some d₀ := Option.ne_none_iff_exists'.mp (by simpa using hnone)
  refine ⟨fun x hx => ?_, fun x hx => ⟨fun hmem => ?_, fun hmem => ?_⟩, ?_⟩
  · rcases Records.mem_update hx with rfl | hx
    · exact ⟨d₀, Records.mem_of_find? hd₀, fun hcontra => absurd hcontra htyp⟩
    · exact ⟨x.2, hx, fun _ => rfl⟩
  · rcases Records.mem_update hmem with rfl | hmem
    · exact absurd hk hx
    · exact hmem
  · exact Records.mem_setFirst_of_ne hmem fun heq => hx (heq ▸ hk)
  · rintro k' - ⟨d', hd'⟩
    by_cases heq : k' = k
    · subst heq
      exact ⟨d, Records.mem_of_find? (Records.find?_update_self (by rw [hd₀]; rfl))⟩
    · exact ⟨d', Records.mem_setFirst_of_ne hd' heq⟩

theorem prunes_commit : Always (Prunes s₀ P Q) mapBackend.updateFsTreeRoot := by
  intro s
  have hframe := traffic_frame s
  change Prunes s₀ P Q s (final (mapCommit s))
  simp only [mapCommit]
  cases ht : traffic s with
  | error e t => rw [ht] at hframe; exact Prunes.of_records hframe.2
  | ok u t => rw [ht] at hframe; exact Prunes.of_records hframe.2

end ops

/-! ## 2. Steps -/

section steps

variable {readErr updateErr format : String} {f : MapFs → Bytes → Bytes} {delta : Int}

theorem prunes_editInode (hP : P ⟨ino, typeInodeItem, 0⟩) :
    Always (Prunes s₀ P Q) (editInode mapBackend ino readErr updateErr f) := by
  intro s
  simp only [editInode]
  cases mapBackend.searchTree s ⟨ino, typeInodeItem, 0⟩ with
  | error e => exact refl_of (Prunes s₀ P Q) s
  | ok d => exact always_step (prunes_update hP (by simp [typeInodeItem, typeDirIndex])) s

theorem prunes_adjustDirSize (hP : P ⟨ino, typeInodeItem, 0⟩) :
    Always (Prunes s₀ P Q) (adjustDirSize mapBackend ino delta) := by
  rw [adjustDirSize]
  split_ifs
  · exact Always.pure ()
  · exact prunes_editInode hP

theorem prunes_removeInodeRef {parentIno : Nat} (hQP : ∀ k, Q k → P k)
    (hQ : Q ⟨ino, typeInodeRef, parentIno⟩) :
    Always (Prunes s₀ P Q) (removeInodeRef mapBackend ino parentIno name) := by
  intro s
  simp only [removeInodeRef]
  cases mapBackend.searchTree s ⟨ino, typeInodeRef, parentIno⟩ with
  | error e => exact refl_of (Prunes s₀ P Q) s
  | ok d =>
    dsimp only
    split_ifs
    · exact always_step (prunes_delete hQP hQ) s
    · exact always_step (prunes_update (hQP _ hQ) (by simp [typeInodeRef, typeDirIndex])) s

/-- The DIR_INDEX items of a directory that hold a name. -/
def HoldsName (s₀ : MapFs) (dir : Nat) (name : Name) (k : Key) : Prop :=
  k.objID = dir ∧ k.typ = typeDirIndex ∧ ∃ d, (k, d) ∈ s₀.records.list ∧ dirItemName d = some name

theorem prunes_removeDirIndex (hQP : ∀ k, Q k → P k) (hQ : ∀ k, HoldsName s₀ dir name k → Q k) :
    Always (Prunes s₀ P Q) (removeDirIndex mapBackend format dir name) := by
  intro s hs
  simp only [removeDirIndex]
  cases hc : mapBackend.collectPrefixItems s dir typeDirIndex with
  | error e => exact refl_of (Prunes s₀ P Q) s hs
  | ok items =>
    obtain ⟨hitems, hkeys⟩ := typ_of_collect hc
    cases hfind : items.find? fun e => decide (dirItemName e.2 = some name) with
    | none => exact refl_of (Prunes s₀ P Q) s hs
    | some e =>
      have hmem := List.mem_of_find?_eq_some hfind
      obtain ⟨hobj, htyp⟩ := hkeys e hmem
      -- the item that is found was there at the start
      obtain ⟨d, hd, hsame⟩ := hs e (List.mem_filter.mp (hitems ▸ hmem)).1
      have hname : dirItemName e.2 = some name := by simpa using List.find?_some hfind
      have hk : HoldsName s₀ dir name e.1 := ⟨hobj, htyp, d, hd, hsame htyp ▸ hname⟩
      exact always_step (prunes_delete hQP (hQ _ hk)) s hs

end steps

/-! ## 3. Removing an inode -/

/-- All items of the inode may go, with the entry for it. -/
structure Removable (s₀ : MapFs) (P Q : Key → Prop) (ino dir : Nat) (name : Name) : Prop where
  sub : ∀ k, Q k → P k
  inode : ∀ k : Key, k.objID = ino → Q k
  parent : P ⟨dir, typeInodeItem, 0⟩
  item : Q ⟨dir, typeDirItem, hashDirName name⟩
  index : ∀ k, HoldsName s₀ dir name k → Q k

theorem prunes_unlinkInodeOnly (h : Removable s₀ P Q ino dir name) :
    Always (Prunes s₀ P Q) (unlinkInodeOnly mapBackend now ino dir name) := by
  refine Always.bind (prunes_removeDirIndex h.sub h.index) fun _ => ?_
  refine Always.bind (always_tolerate (prunes_delete h.sub h.item)) fun _ => ?_
  refine Always.bind (always_step (prunes_removeInodeRef h.sub (h.inode _ rfl))) fun _ => ?_
  refine Always.bind (prunes_editInode (h.sub _ (h.inode _ rfl))) fun _ => ?_
  refine Always.bind (always_step (prunes_adjustDirSize h.parent)) fun _ => ?_
  exact Always.bind (always_step (prunes_editInode h.parent)) fun _ => prunes_commit

theorem prunes_dropInode (h : Removable s₀ P Q ino dir name) :
    Always (Prunes s₀ P Q) (dropInode mapBackend now ino dir name) := by
  refine Always.bind (fun s => Prunes.of_records (freeInodeExtents_frame s ino).2) fun _ => ?_
  refine Always.bind (always_step (prunes_deletePrefix h.sub fun _ => h.inode _ rfl)) fun _ => ?_
  refine Always.bind (always_tolerate (prunes_deletePrefix h.sub fun _ => h.inode _ rfl)) fun _ => ?_
  refine Always.bind (always_tolerate (prunes_delete h.sub (h.inode _ rfl))) fun _ => ?_
  refine Always.bind (always_step (prunes_delete h.sub (h.inode _ rfl))) fun _ => ?_
  refine Always.bind (prunes_removeDirIndex h.sub h.index) fun _ => ?_
  refine Always.bind (always_tolerate (prunes_delete h.sub h.item)) fun _ => ?_
  refine Always.bind (always_step (prunes_adjustDirSize h.parent)) fun _ => ?_
  exact Always.bind (always_step (prunes_editInode h.parent)) fun _ => prunes_commit

theorem prunes_removeInode (h : Removable s₀ P Q ino dir name) :
    Always (Prunes s₀ P Q) (removeInode mapBackend now ino dir name) := by
  intro s
  simp only [removeInode]
  split_ifs
  · exact prunes_unlinkInodeOnly h s
  · exact prunes_dropInode h s

/-! ## 4. The recursion -/

/-- Inodes whose items may all go, and that no entry leads out of. -/
structure Enclosed (s₀ : MapFs) (P Q : Key → Prop) (C : Set Nat) : Prop where
  sub : ∀ k, Q k → P k
  items : ∀ k : Key, k.objID ∈ C → Q k
  closed : ∀ x ∈ s₀.records.list, x.1.typ = typeDirIndex → x.1.objID ∈ C →
    ∀ e ∈ parseDirEntries x.2.length x.2, e.inode ∈ C

theorem Enclosed.removable {C : Set Nat} (h : Enclosed s₀ P Q C) (hino : ino ∈ C) (hdir : dir ∈ C) :
    Removable s₀ P Q ino dir name where
  sub := h.sub
  inode k hk := h.items k (hk ▸ hino)
  parent := h.sub _ (h.items _ hdir)
  item := h.items _ hdir
  index k hk := h.items k (hk.1 ▸ hdir)

theorem Enclosed.readDir {C : Set Nat} (h : Enclosed s₀ P Q C) (hs : Within s₀ s) (hdir : dir ∈ C) :
    ∀ e ∈ readDir mapBackend s dir, e.inode ∈ C := by
  intro e he
  simp only [Btrfs.readDir] at he
  cases hc : mapBackend.collectPrefixItems s dir typeDirIndex with
  | error err => rw [hc] at he; cases he
  | ok items =>
    rw [hc] at he
    obtain ⟨x, hx, hex⟩ := List.mem_flatMap.mp he
    obtain ⟨hitems, hkeys⟩ := typ_of_collect hc
    obtain ⟨hobj, htyp⟩ := hkeys x hx
    obtain ⟨d, hd, hsame⟩ := hs x (List.mem_filter.mp (hitems ▸ hx)).1
    have hentry := (List.mem_filter.mp hex).1
    rw [← hsame htyp] at hentry
    exact h.closed _ hd htyp (hobj ▸ hdir) e hentry

theorem Enclosed.purgeDirContents {C : Set Nat} (h : Enclosed s₀ P Q C) {depth : Nat} (hdir : dir ∈ C) :
    Always (Prunes s₀ P Q) (purgeDirContents mapBackend now depth dir) := by
  induction depth generalizing dir with
  | zero => exact Always.throw _
  | succ depth ih =>
    intro s hs
    refine Always.forM (R := Prunes s₀ P Q) (fun e he => ?_) s hs
    have hino := h.readDir hs hdir e he
    have hremove : Always (Prunes s₀ P Q) (removeInode mapBackend now e.inode dir e.name) :=
      prunes_removeInode (h.removable hino hdir)
    by_cases hkind : e.fileType = ftDir
    · simp only [hkind, if_true]
      refine Always.bind (ih hino) fun _ => Always.bind (always_step ?_) fun _ => hremove
      exact prunes_deletePrefix h.sub fun _ => h.items _ hino
    · simp only [hkind, if_false]
      exact hremove

end Btrfs
