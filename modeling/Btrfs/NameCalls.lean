/-
  Btrfs/NameCalls.lean
  ====================
  **The calls as edits of the namespace.**

  Every call that succeeds takes a filesystem that holds a namespace to one that holds an
  edited one.  The items follow entry by entry; of the inodes, the directories an entry
  leaves or comes to follow in their sizes, and the inode it names in its link count.
-/
import Btrfs.NameEdits

namespace Btrfs

open Lib

variable {s s' s₁ s₂ : MapFs} {N : Names} {E : Finset Entry} {e e' : Entry} {now : Timespec}
  {v : NameKey → Option Bytes} {w : Nat → Option InodeItem} {D F : Finset Nat}

/-! ## 1. Items -/

theorem RefsOf.eq_none {o : Option Bytes} {S : Set InodeRefEntry} (h : RefsOf o S) (hS : S = ∅) :
    o = none := by
  obtain ⟨l, hl, ho⟩ := h
  have hnil : l = [] := by
    rw [List.eq_nil_iff_forall_not_mem]
    intro x hx
    rw [hl, hS] at hx
    exact hx
  rw [ho, if_pos hnil]

theorem refsOf_none : RefsOf none ∅ := ⟨[], by simp, rfl⟩

/-- The back-references of a new entry are its own. -/
theorem backRefs_ok (h : ∀ x ∈ E, x.Ok) (ino dir : Nat) : ∀ x ∈ backRefs E ino dir, RefOk x := by
  rintro x ⟨e, he, -, -, rfl⟩
  exact (h e he).backRef

section items

variable {indexErr itemErr format : String} {args : List ErrArg}

/-- Enter an entry, with a back-reference beside those the inode has. -/
theorem enter_shows (h : Shows s v w) (hitems : ItemsRep v E) (hok : ∀ x ∈ E, x.Ok)
    (hindex : ∀ x ∈ E, x.indexKey ≠ e.indexKey) (hitem : ∀ x ∈ E, x.itemKey ≠ e.itemKey)
    (hroot : e.ino ≠ rootDirObjID)
    (hinsert : insertDirEntry mapBackend indexErr itemErr args e.dir e.idx e.name e.payload s =
      .ok () s₁)
    (happend : appendInodeRef mapBackend e.ino e.dir e.idx e.name s₁ = .ok () s') :
    ∃ v', ItemsRep v' (insert e E) ∧ Shows s' v' w := by
  have h₁ := h.insertDirEntry (hitems.index.eq_none (k := .index e.dir e.idx) trivial hindex)
    (hitems.item.eq_none (k := .item e.dir (hashDirName e.name)) trivial hitem) hinsert
  have hrefs := hitems.refs e.ino e.dir hroot
  have hnew : ∀ x ∈ backRefs E e.ino e.dir, x.name ≠ e.name := by
    rintro x ⟨e', he', hdir, -, rfl⟩ hname
    refine hitem e' he' ?_
    rw [Entry.itemKey, Entry.itemKey, hdir, show e'.name = e.name from hname]
  have hrefs₁ : RefsOf ((Function.update (Function.update v (.index e.dir e.idx) (some e.payload))
      (.item e.dir (hashDirName e.name)) (some e.payload)) (.ref e.ino e.dir))
      (backRefs E e.ino e.dir) := by
    rw [Function.update_of_ne (by simp), Function.update_of_ne (by simp)]
    exact hrefs
  obtain ⟨x, hx, hs'⟩ := appendInodeRef_shows h₁ hrefs₁ (backRefs_ok hok e.ino e.dir) hnew happend
  exact ⟨_, hitems.enter hindex hitem hx, hs'⟩

/-- Take an entry away, with its back-reference. -/
theorem leave_shows (h : Shows s v w) (hitems : ItemsRep v N.entries) (hN : N.WF)
    (he : e ∈ N.entries)
    (hindex : removeDirIndex mapBackend format e.dir e.name s = .ok () s₁)
    (hitem : tolerateNotFound itemErr
      (mapBackend.cowDelete ⟨e.dir, typeDirItem, hashDirName e.name⟩) s₁ = .ok () s₂)
    (href : removeInodeRef mapBackend e.ino e.dir e.name s₂ = .ok () s') :
    ∃ v', ItemsRep v' (N.entries.erase e) ∧ Shows s' v' w := by
  have hname : ∀ x ∈ N.entries, x.dir = e.dir → x.name = e.name → x = e :=
    fun x hx hdir hname => hN.eq_of_name hx he hdir hname
  have h₁ := removeDirIndex_shows h hitems.index hN.ok he hname hindex
  have h₂ := h₁.forget (k := e.itemKey) hitem
  have hrefs₂ : RefsOf ((Function.update (Function.update v e.indexKey none) e.itemKey none)
      (.ref e.ino e.dir)) (backRefs N.entries e.ino e.dir) := by
    rw [Function.update_of_ne (by simp [Entry.itemKey]), Function.update_of_ne (by simp [Entry.indexKey])]
    exact hitems.refs e.ino e.dir (hN.noRoot e he)
  obtain ⟨x, hx, hs'⟩ := removeInodeRef_shows h₂ hrefs₂ (backRefs_ok hN.ok e.ino e.dir) href
  rw [← backRefs_erase_self hname] at hx
  exact ⟨_, hitems.leave (fun x hx heq => hN.index x hx e he heq)
    (fun x hx heq => hN.item x hx e he heq) hx, hs'⟩

end items

/-! ## 2. Inodes -/

theorem InodeAs.of_eq {N' : Names} {ino : Nat} {o : Option InodeItem} (h : InodeAs N ino o)
    (hdirs : ino ∈ N'.dirs ↔ ino ∈ N.dirs) (hfiles : ino ∈ N'.files ↔ ino ∈ N.files)
    (hlinks : N'.links ino = N.links ino) (hsize : N'.sizeOf ino = N.sizeOf ino) :
    InodeAs N' ino o := by
  cases o with
  | none =>
    simp only [InodeAs, hdirs, hfiles] at h ⊢
    exact h
  | some i =>
    simp only [InodeAs, hdirs, hfiles, hlinks, hsize] at h ⊢
    exact h

/-- A directory that gains an entry counts its name; the inode of the entry is left open. -/
theorem inodes_enter {i : InodeItem} (hold : ∀ n, n ≠ e.ino → InodeAs N n (w n))
    (hnew : e ∉ N.entries) (hlt : Names.sizeOf ⟨D, F, insert e N.entries⟩ e.dir < 2 ^ 64)
    (hapart : Disjoint N.dirs N.files) (hdir : e.dir ∈ N.dirs) (hi : w e.dir = some i)
    (hne : e.dir ≠ e.ino) (hD : ∀ n, n ≠ e.ino → (n ∈ D ↔ n ∈ N.dirs))
    (hF : ∀ n, n ≠ e.ino → (n ∈ F ↔ n ∈ N.files)) :
    ∀ n, n ≠ e.ino → InodeAs ⟨D, F, insert e N.entries⟩ n (Function.update w e.dir
      (some { i with size := ((i.size : Int) + dirEntrySizeDelta e.name).toNat % 2 ^ 64 }) n) := by
  intro n hn
  have hsize : Names.sizeOf ⟨D, F, insert e N.entries⟩ n =
      N.sizeOf n + if e.dir = n then 2 * e.name.length else 0 := Names.sizeOf_add hnew n
  have hlinks : Names.links ⟨D, F, insert e N.entries⟩ n = N.links n := by
    have hadd := Names.links_add hnew n
    rw [if_neg (Ne.symm hn)] at hadd
    exact hadd
  by_cases heq : n = e.dir
  · subst heq
    rw [Function.update_self]
    have has := hold e.dir hn
    rw [hi] at has
    rcases has with ⟨-, hkind, hnlink, hold⟩ | ⟨hfile, -⟩
    · refine Or.inl ⟨(hD _ hne).mpr hdir, hkind, hnlink, ?_⟩
      rw [if_pos rfl] at hsize
      rw [hsize] at hlt ⊢
      simp only [hold, dirEntrySizeDelta]
      omega
    · exact absurd hfile (Finset.disjoint_left.mp hapart hdir)
  · rw [Function.update_of_ne heq]
    rw [if_neg (Ne.symm heq)] at hsize
    exact (hold n hn).of_eq (hD n hn) (hF n hn) hlinks hsize

/-- A directory that loses an entry. -/
theorem inodes_leave {i : InodeItem} (hold : ∀ n, n ≠ e.ino → InodeAs N n (w n))
    (he : e ∈ N.entries) (hlt : N.sizeOf e.dir < 2 ^ 64) (hapart : Disjoint N.dirs N.files)
    (hdir : e.dir ∈ N.dirs) (hi : w e.dir = some i) (hne : e.dir ≠ e.ino)
    (hD : ∀ n, n ≠ e.ino → (n ∈ D ↔ n ∈ N.dirs)) (hF : ∀ n, n ≠ e.ino → (n ∈ F ↔ n ∈ N.files)) :
    ∀ n, n ≠ e.ino → InodeAs ⟨D, F, N.entries.erase e⟩ n (Function.update w e.dir
      (some { i with size := ((i.size : Int) + -dirEntrySizeDelta e.name).toNat % 2 ^ 64 }) n) := by
  intro n hn
  have hsize : N.sizeOf n = Names.sizeOf ⟨D, F, N.entries.erase e⟩ n +
      if e.dir = n then 2 * e.name.length else 0 := Names.sizeOf_cut he n
  have hlinks : Names.links ⟨D, F, N.entries.erase e⟩ n = N.links n := by
    have hcut := Names.links_cut he n
    rw [if_neg (Ne.symm hn)] at hcut
    exact hcut.symm
  by_cases heq : n = e.dir
  · subst heq
    rw [Function.update_self]
    have has := hold e.dir hn
    rw [hi] at has
    rcases has with ⟨-, hkind, hnlink, hold⟩ | ⟨hfile, -⟩
    · refine Or.inl ⟨(hD _ hne).mpr hdir, hkind, hnlink, ?_⟩
      rw [if_pos rfl] at hsize
      rw [hsize] at hlt
      simp only [hold, hsize, dirEntrySizeDelta]
      omega
    · exact absurd hfile (Finset.disjoint_left.mp hapart hdir)
  · rw [Function.update_of_ne heq]
    rw [if_neg (Ne.symm heq)] at hsize
    exact (hold n hn).of_eq (hD n hn) (hF n hn) hlinks hsize.symm

/-! ## 3. New indices and inodes -/

theorem lt_nextIndex (h : Shows s v w)
    (hindex : ItemsStored NameKey.isIndex Entry.indexKey v E) (he : e ∈ E) :
    e.idx < nextDirIndexOffset mapBackend s e.dir :=
  lt_nextDirIndexOffset ((h.mem_dirIndex hindex).mpr ⟨e, he, rfl, rfl⟩)

theorem nextDirIndexOffset_le {dir bound : Nat} (hlow : 3 ≤ bound)
    (hall : ∀ x ∈ s.records.keep (inPrefix dir typeDirIndex), x.1.offset < bound) :
    nextDirIndexOffset mapBackend s dir ≤ bound := by
  have hfold : ∀ (l : List (Key × Bytes)) (m : Nat), m < bound → (∀ x ∈ l, x.1.offset < bound) →
      l.foldl (fun m x => max m x.1.offset) m < bound := by
    intro l
    induction l with
    | nil => exact fun m hm _ => hm
    | cons a l ih =>
      intro m hm hl
      exact ih _ (max_lt hm (hl a List.mem_cons_self)) fun x hx => hl x (List.mem_cons_of_mem _ hx)
  rw [nextDirIndexOffset_eq]
  exact hfold _ 2 (by omega) hall

theorem nextIndex_le {dir bound : Nat} (h : Shows s v w)
    (hindex : ItemsStored NameKey.isIndex Entry.indexKey v E) (hlow : 3 ≤ bound)
    (hall : ∀ x ∈ E, x.dir = dir → x.idx < bound) : nextDirIndexOffset mapBackend s dir ≤ bound := by
  refine nextDirIndexOffset_le hlow fun x hx => ?_
  obtain ⟨e, he, hdir, rfl⟩ := (h.mem_dirIndex hindex).mp hx
  exact hall e he hdir

theorem three_le_nextIndex (s : MapFs) (dir : Nat) : 3 ≤ nextDirIndexOffset mapBackend s dir := by
  rw [nextDirIndexOffset_eq]
  exact Nat.succ_le_succ (le_foldl_max _ 2).1

theorem inodes_nextInodeNum (s : MapFs) : s.inodes (nextInodeNum mapBackend s) = none := by
  rw [MapFs.inodes, Option.map_eq_none_iff]
  by_contra hsome
  exact absurd (lt_nextInodeNum (Option.isSome_iff_ne_none.mpr hsome)) (lt_irrefl _)

theorem Holds.fresh (h : Holds s N) :
    nextInodeNum mapBackend s ∉ N.dirs ∧ nextInodeNum mapBackend s ∉ N.files := by
  have has := h.inodes (nextInodeNum mapBackend s)
  rw [inodes_nextInodeNum] at has
  exact has

theorem nlink_lt {ino : Nat} {i : InodeItem} (h : s.inodes ino = some i) : i.nlink < 2 ^ 32 := by
  rw [MapFs.inodes, Option.map_eq_some_iff] at h
  obtain ⟨d, -, rfl⟩ := h
  exact leAt_lt 4 inodeOffNLink d

/-- An item in an intact filesystem fits in a leaf, and so does its name in its field. -/
theorem nameOk_of_item {k : Key} (hs : Intact s) (h : s.records.find? k = some e.payload) :
    NameOk e.name :=
  nameOk_of_fits hs (hs.items _ (Records.mem_of_find? h)).1

/-! ## 4. Creating -/

/-- The namespace with a new inode, under its first name. -/
def Names.create (N : Names) (e : Entry) : Names where
  dirs := if e.ft = ftDir then insert e.ino N.dirs else N.dirs
  files := if e.ft = ftDir then N.files else insert e.ino N.files
  entries := insert e N.entries

theorem dirEntrySizeDelta_ne_zero {name : Name} (h : Ordinary name) : dirEntrySizeDelta name ≠ 0 := by
  have hlen := List.length_pos_iff.mpr h.1
  simp only [dirEntrySizeDelta]
  omega

theorem Names.WF.no_entries (h : N.WF) {ino : Nat} (hd : ino ∉ N.dirs) (hf : ino ∉ N.files) :
    ∀ x ∈ N.entries, x.dir ≠ ino ∧ x.ino ≠ ino := by
  intro x hx
  refine ⟨fun heq => hd (heq ▸ h.dir x hx), fun heq => ?_⟩
  rcases h.target x hx with ⟨-, hmem⟩ | ⟨-, hmem⟩
  · exact hd (heq ▸ hmem)
  · exact hf (heq ▸ hmem)

theorem Names.links_eq_zero {ino : Nat} (h : ∀ x ∈ N.entries, x.ino ≠ ino) : N.links ino = 0 := by
  rw [Names.links, Finset.card_eq_zero, Finset.filter_eq_empty_iff]
  exact fun x hx => h x hx

theorem Names.sizeOf_eq_zero {dir : Nat} (h : ∀ x ∈ N.entries, x.dir ≠ dir) : N.sizeOf dir = 0 := by
  have hempty : N.entries.filter (fun x => x.dir = dir) = ∅ :=
    Finset.filter_eq_empty_iff.mpr fun x hx => h x hx
  rw [Names.sizeOf, hempty, Finset.sum_empty, Nat.mul_zero]

/-- The inode a fresh INODE_ITEM describes, for an entry of this type. -/
def NewInode (ft : Nat) (i : InodeItem) : Prop :=
  i.nlink = 1 ∧ ((ft = ftDir ∧ i.isDir = true ∧ i.size = 0) ∨ (ft ≠ ftDir ∧ i.isDir = false))

namespace Names

variable {n : Nat}

theorem mem_create_dirs (hn : n ≠ e.ino) : n ∈ (N.create e).dirs ↔ n ∈ N.dirs := by
  simp only [create]
  split_ifs <;> simp [hn]

theorem mem_create_files (hn : n ≠ e.ino) : n ∈ (N.create e).files ↔ n ∈ N.files := by
  simp only [create]
  split_ifs <;> simp [hn]

theorem WF.create (h : N.WF) (hino : e.ino ∉ N.dirs ∧ e.ino ∉ N.files) (hok : e.Ok)
    (hindex : ∀ x ∈ N.entries, x.indexKey ≠ e.indexKey)
    (hitem : ∀ x ∈ N.entries, x.itemKey ≠ e.itemKey) (hdir : e.dir ∈ N.dirs) :
    (N.create e).WF := by
  have htarget : (e.ft = ftDir ∧ e.ino ∈ (N.create e).dirs ∧ e.ino ∉ N.dirs) ∨
      (e.ft ≠ ftDir ∧ e.ino ∈ (N.create e).files) := by
    by_cases hkind : e.ft = ftDir
    · exact Or.inl ⟨hkind, by simp [Names.create, hkind], hino.1⟩
    · exact Or.inr ⟨hkind, by simp [Names.create, hkind]⟩
  have hapart : Disjoint (N.create e).dirs (N.create e).files := by
    by_cases hkind : e.ft = ftDir
    · simp only [Names.create, if_pos hkind]
      exact Finset.disjoint_insert_left.mpr ⟨hino.2, h.apart⟩
    · simp only [Names.create, if_neg hkind]
      exact Finset.disjoint_insert_right.mpr ⟨hino.1, h.apart⟩
  refine h.enter (fun n hn => ?_) (fun n hn => ?_) hapart hok hindex hitem hdir htarget ?_
  · exact (mem_create_dirs fun heq => hino.1 (heq ▸ hn)).mpr hn
  · exact (mem_create_files fun heq => hino.2 (heq ▸ hn)).mpr hn
  · exact fun heq => hino.1 (heq ▸ h.root)

end Names

/-- The new inode has one name, and a new directory has none in it. -/
theorem inodeAs_create {i : InodeItem} (hnone : ∀ x ∈ N.entries, x.dir ≠ e.ino ∧ x.ino ≠ e.ino)
    (hfresh : e ∉ N.entries) (hne : e.dir ≠ e.ino) (hi : NewInode e.ft i) :
    InodeAs (N.create e) e.ino (some i) := by
  obtain ⟨hlink, ⟨hkind, hisdir, hzero⟩ | ⟨hkind, hisdir⟩⟩ := hi
  · refine Or.inl ⟨by simp [Names.create, hkind], hisdir, hlink, ?_⟩
    have hadd := Names.sizeOf_add hfresh e.ino
    rw [if_neg hne, Names.sizeOf_eq_zero fun x hx => (hnone x hx).1] at hadd
    exact hzero.trans hadd.symm
  · refine Or.inr ⟨by simp [Names.create, hkind], hisdir, ?_⟩
    have hadd := Names.links_add hfresh e.ino
    rw [if_pos rfl, Names.links_eq_zero fun x hx => (hnone x hx).2] at hadd
    exact hlink.trans hadd.symm

/-- The name can be entered in the directory: its hash is taken by no other name. -/
def Names.Free (N : Names) (dir : Nat) (name : Name) : Prop :=
  ∀ x ∈ N.entries, x.dir = dir → hashDirName x.name ≠ hashDirName name

section create

variable {ino ft parentIno : Nat} {name : Name} {new : InodeItem}

theorem Names.Free.itemKey (h : N.Free parentIno name) {idx : Nat} :
    ∀ x ∈ N.entries, x.itemKey ≠ (⟨parentIno, idx, name, ino, ft⟩ : Entry).itemKey := by
  intro x hx heq
  rw [Entry.itemKey, Entry.itemKey, NameKey.item.injEq] at heq
  exact h x hx heq.1 heq.2

theorem indexKey_fresh (h : Shows s v w)
    (hindex : ItemsStored NameKey.isIndex Entry.indexKey v E) :
    ∀ x ∈ E, x.indexKey ≠
      (⟨parentIno, nextDirIndexOffset mapBackend s parentIno, name, ino, ft⟩ : Entry).indexKey := by
  intro x hx heq
  rw [Entry.indexKey, Entry.indexKey, NameKey.index.injEq] at heq
  have hlt := lt_nextIndex h hindex hx
  rw [heq.1] at hlt
  exact absurd heq.2 hlt.ne

/-- Enter a new inode in a directory, and commit. -/
theorem Holds.enterNew {e₁ e₂ e₃ e₄ e₅ : String} {args : List ErrArg} (h : Holds s N)
    (hs' : Intact s') (hino : ino ∉ N.dirs ∧ ino ∉ N.files) (hparent : parentIno ∈ N.dirs)
    (hfree : N.Free parentIno name) (hname : Ordinary name)
    (hidx : nextDirIndexOffset mapBackend s parentIno < 2 ^ 64) (hnum : ino < 2 ^ 64)
    (hft : ft < 256) (hnew : NewInode ft new)
    (hmid : Shows s₂ s.names (Function.update s.inodes ino (some new)))
    (hrun : (do
      insertDirEntry mapBackend e₁ e₂ args parentIno (nextDirIndexOffset mapBackend s₂ parentIno) name
        (encodeDirItem ino typeInodeItem ft name)
      step e₃ args (mapBackend.cowInsert ⟨ino, typeInodeRef, parentIno⟩
        (encodeInodeRef (nextDirIndexOffset mapBackend s₂ parentIno) name))
      step e₄ args (adjustDirSize mapBackend parentIno (dirEntrySizeDelta name))
      step e₅ args (touchDir mapBackend now parentIno)
      mapBackend.updateFsTreeRoot : FileM MapFs Unit) s₂ = .ok () s') :
    ∃ idx, Holds s' (N.create ⟨parentIno, idx, name, ino, ft⟩) := by
  obtain ⟨_, t₁, hinsert, hrun₁⟩ := run_bind.mp hrun
  obtain ⟨_, t₂, href, hrun₂⟩ := run_bind.mp hrun₁
  obtain ⟨_, t₃, hsize, hrun₃⟩ := run_bind.mp hrun₂
  obtain ⟨_, t₄, htouch, hcommit⟩ := run_bind.mp hrun₃
  obtain ⟨idx, hidx₂⟩ : ∃ idx, idx = nextDirIndexOffset mapBackend s₂ parentIno := ⟨_, rfl⟩
  have hitems := h.items
  have hnone := h.wf.no_entries hino.1 hino.2
  have hrootne : ino ≠ rootDirObjID := fun heq => hino.1 (heq ▸ h.wf.root)
  have hne : parentIno ≠ ino := fun heq => hino.1 (heq ▸ hparent)
  have hindexKey : ∀ x ∈ N.entries, x.indexKey ≠
      (⟨parentIno, nextDirIndexOffset mapBackend s₂ parentIno, name, ino, ft⟩ : Entry).indexKey :=
    indexKey_fresh hmid hitems.index
  rw [← hidx₂] at hinsert href hindexKey
  let e : Entry := ⟨parentIno, idx, name, ino, ft⟩
  have hitemKey : ∀ x ∈ N.entries, x.itemKey ≠ e.itemKey := hfree.itemKey
  have hfresh : e ∉ N.entries := fun hmem => hindexKey e hmem rfl
  -- the items
  have hnorefs : backRefs N.entries ino parentIno = ∅ := by
    rw [Set.eq_empty_iff_forall_notMem]
    rintro x ⟨e', he', -, heq, -⟩
    exact (hnone e' he').2 heq
  have hnoref : s.names (.ref ino parentIno) = none :=
    (hitems.refs ino parentIno hrootne).eq_none hnorefs
  have h₁ := hmid.insertDirEntry (hitems.index.eq_none (k := .index parentIno idx) trivial hindexKey)
    (hitems.item.eq_none (k := .item parentIno (hashDirName name)) trivial hitemKey) hinsert
  have h₂ := h₁.insert (k := .ref ino parentIno)
    (by rw [Function.update_of_ne (by simp), Function.update_of_ne (by simp)]; exact hnoref)
    (run_wrapErr.mp href)
  have hrefs : RefsOf (some (encodeInodeRef idx name)) (insert e.backRef (backRefs N.entries ino parentIno)) := by
    refine ⟨[⟨idx, name⟩], fun x => ?_, by simp [encodeInodeRefEntries]⟩
    rw [hnorefs, List.mem_singleton]
    simp [Entry.backRef, e]
  have hitems' := hitems.enter (e := e) hindexKey hitemKey hrefs
  -- the inodes
  obtain ⟨i, hi, h₃⟩ := h₂.resize (dirEntrySizeDelta_ne_zero hname) (run_wrapErr.mp hsize)
  have h₄ := (h₃.touch (run_wrapErr.mp htouch)).commit hcommit
  have hokname : NameOk name := nameOk_of_item (e := e) (k := e.indexKey.key) hs'
    ((h₄.find?_key e.indexKey).trans (hitems'.index.eq_some (Finset.mem_insert_self _ _) trivial))
  have hidxlt : idx < 2 ^ 64 := by
    rw [hidx₂]
    refine lt_of_le_of_lt (nextIndex_le hmid hitems.index (three_le_nextIndex s parentIno) ?_) hidx
    rintro x hx rfl
    exact lt_nextIndex h.shows hitems.index hx
  have hok : e.Ok := ⟨hidxlt, hnum, hft, hokname, hname⟩
  have hwf : (N.create e).WF := h.wf.create hino hok hindexKey hitemKey hparent
  refine ⟨idx, Holds.of_shows h₄ hitems' (fun n => ?_) hwf⟩
  have hold : ∀ n, n ≠ e.ino → InodeAs N n (Function.update s.inodes ino (some new) n) := by
    intro n hn
    rw [Function.update_of_ne (show n ≠ ino from hn)]
    exact h.inodes n
  by_cases hn : n = ino
  · subst hn
    rw [Function.update_of_ne (Ne.symm hne), Function.update_self]
    exact inodeAs_create (e := e) hnone hfresh hne hnew
  · exact inodes_enter hold hfresh (hwf.sizeOf_lt _) h.wf.apart hparent hi hne
      (fun n hn => Names.mem_create_dirs hn) (fun n hn => Names.mem_create_files hn) n hn

theorem Holds.createInode {mode : Nat} {data : Bytes} {opLabel : String} (h : Holds s N)
    (hs' : Intact s') (hparent : parentIno ∈ N.dirs) (hfree : N.Free parentIno name)
    (hname : Ordinary name) (hidx : nextDirIndexOffset mapBackend s parentIno < 2 ^ 64)
    (hnum : nextInodeNum mapBackend s < 2 ^ 64) (hft : ft < 256) (hkind : ft ≠ ftDir)
    (hmode : mode < 2 ^ 16) (hmode' : mode &&& 0xF000 ≠ 0x4000)
    (hrun : createInodeWithDirEntry mapBackend now parentIno name data mode ft opLabel s =
      .ok () s') :
    ∃ idx, Holds s' (N.create ⟨parentIno, idx, name, nextInodeNum mapBackend s, ft⟩) := by
  have hrun₁ := run_get_bind.mp hrun
  obtain ⟨_, t₁, hinsert, hrun₂⟩ := run_bind.mp hrun₁
  obtain ⟨_, t₂, hwrite, hrun₃⟩ := run_bind.mp hrun₂
  have hrun₄ := run_get_bind.mp hrun₃
  have hmid := (h.shows.insertInode (inodes_nextInodeNum s) (Whole.encode ..)
    (run_wrapErr.mp hinsert)).ofBody (writeExtents_effect (run_wrapErr.mp hwrite))
  rw [(Decodes.encode_mod _ _ _ _ _ hmode (by decide)).item] at hmid
  refine h.enterNew hs' h.fresh hparent hfree hname hidx hnum hft ?_ hmid hrun₄
  exact ⟨rfl, Or.inr ⟨hkind, decide_eq_false hmode'⟩⟩

theorem dirMode_lt (perm : Nat) : dirMode perm < 2 ^ 16 :=
  Nat.or_lt_two_pow (by decide) (lt_of_le_of_lt Nat.and_le_right (by decide))

theorem isDir_dirMode (perm : Nat) : dirMode perm &&& 0xF000 = 0x4000 := by
  have hperm : perm &&& 0o777 &&& 0xF000 = 0 := by
    rw [Nat.and_assoc]
    exact Nat.and_zero perm
  rw [dirMode, Nat.and_or_distrib_right, hperm]
  rfl

theorem Holds.createDir {perm : Nat} (h : Holds s N) (hs' : Intact s')
    (hparent : parentIno ∈ N.dirs) (hfree : N.Free parentIno name) (hname : Ordinary name)
    (hidx : nextDirIndexOffset mapBackend s parentIno < 2 ^ 64)
    (hnum : nextInodeNum mapBackend s < 2 ^ 64)
    (hrun : createDir mapBackend now parentIno name perm s = .ok () s') :
    ∃ idx, Holds s' (N.create ⟨parentIno, idx, name, nextInodeNum mapBackend s, ftDir⟩) := by
  have hrun₁ := run_get_bind.mp hrun
  obtain ⟨_, t₁, hinsert, hrun₂⟩ := run_bind.mp hrun₁
  have hrun₃ := run_get_bind.mp hrun₂
  have hmid := h.shows.insertInode (inodes_nextInodeNum s) (Whole.encode ..) (run_wrapErr.mp hinsert)
  rw [(Decodes.encode_mod _ _ _ _ _ (dirMode_lt perm) (by decide)).item] at hmid
  refine h.enterNew hs' h.fresh hparent hfree hname hidx hnum (by decide) ?_ hmid hrun₃
  exact ⟨rfl, Or.inl ⟨rfl, decide_eq_true (isDir_dirMode perm), rfl⟩⟩

end create

/-! ## 5. Links and contents -/

/-- An edit that leaves alone what the namespace says of an inode. -/
theorem Holds.edit {ino : Nat} {f : MapFs → Bytes → Bytes} {g : InodeItem → InodeItem}
    {readErr updateErr : String} (h : Holds s N) (hf : EditsTo ino f g)
    (hg : ∀ i, (g i).isDir = i.isDir ∧ (g i).nlink = i.nlink ∧
      (ino ∈ N.dirs → (g i).size = i.size))
    (hrun : editInode mapBackend ino readErr updateErr f s = .ok () s') : Holds s' N := by
  obtain ⟨i, hi, hs'⟩ := h.shows.edit hf hrun
  refine Holds.of_shows hs' h.items (fun n => ?_) h.wf
  by_cases hn : n = ino
  · subst hn
    obtain ⟨hdir, hlink, hsize⟩ := hg i
    have has := h.inodes n
    rw [hi] at has
    rw [Function.update_self]
    rcases has with ⟨hmem, hisdir, hone, hsum⟩ | ⟨hmem, hisdir, hcount⟩
    · exact Or.inl ⟨hmem, hdir.trans hisdir, hlink.trans hone, (hsize hmem).trans hsum⟩
    · exact Or.inr ⟨hmem, hdir.trans hisdir, hlink.trans hcount⟩
  · rw [Function.update_of_ne hn]
    exact h.inodes n

theorem Holds.of_shows_same (h : Holds s N) (hs' : Shows s' s.names s.inodes) : Holds s' N :=
  Holds.of_shows hs' h.items h.inodes h.wf

theorem Holds.commit (h : Holds s N) (hrun : mapBackend.updateFsTreeRoot s = .ok () s') :
    Holds s' N := h.of_shows_same (h.shows.commit hrun)

theorem Holds.clearBody {ino : Nat} (h : Holds s N)
    (hrun : mapBackend.cowDeletePrefix ino typeExtentData (freeInodeExtents mapBackend ino s) =
      .ok () s') : Holds s' N := by
  have hkept : (freeInodeExtents mapBackend ino s).ofTypes nameTypes = s.ofTypes nameTypes := by
    rw [MapFs.ofTypes, (freeInodeExtents_frame s ino).2]
    rfl
  have hcalm : Calm nameTypes (freeInodeExtents mapBackend ino s) s' :=
    (calm_deletePrefix (by decide)).of_ok hrun
  exact h.of_shows_same (h.shows.kept (hcalm.kept.trans hkept))

theorem Holds.overwrite {ino : Nat} {data : Bytes} (h : Holds s N) (hino : ino ∈ N.files)
    (hrun : overwriteFile mapBackend now ino data s = .ok () s') : Holds s' N := by
  obtain ⟨t₂, t₃, hclear, hwrite, hcommit⟩ := overwriteFile_inv hrun
  have h₂ := h.clearBody hclear
  have h₃ : Holds t₃ N := h₂.of_shows_same (h₂.shows.ofBody (writeExtents_effect hwrite))
  refine Holds.commit ?_ hcommit
  cases hedit : editInode mapBackend ino "" "" (fun s => overwritten s.sb now data) t₃ with
  | ok u t₄ =>
    refine h₃.edit (editsTo_overwritten ino now data) (fun i => ⟨rfl, rfl, fun hdir => ?_⟩) hedit
    exact absurd hino (Finset.disjoint_left.mp h.wf.apart hdir)
  | error err t₄ =>
    -- the edit failed, and its error is dropped
    refine h₃.of_shows_same (h₃.shows.kept ?_)
    rw [final_error, MapFs.ofTypes, editInode_error_records hedit]
    rfl

/-- What a link shows: the entry, the link count modulo its width, and the size of the
    directory. -/
theorem Holds.addLink_shows {src : InodeItem} {parentIno : Nat} {name : Name} (h : Holds s N)
    (hsrc : src.num ∈ N.files) (hfree : N.Free parentIno name) (hname : Ordinary name)
    (hrun : Btrfs.addLink mapBackend now src parentIno name s = .ok () s') :
    ∃ v' i j, ItemsRep v' (insert ⟨parentIno, nextDirIndexOffset mapBackend s parentIno, name, src.num,
        if src.isSymlink then ftSymlink else ftRegFile⟩ N.entries) ∧
      s.inodes src.num = some i ∧
      Function.update s.inodes src.num (some { i with nlink := (i.nlink + 1) % 2 ^ 32 }) parentIno =
        some j ∧
      Shows s' v' (Function.update
        (Function.update s.inodes src.num (some { i with nlink := (i.nlink + 1) % 2 ^ 32 })) parentIno
        (some { j with size := ((j.size : Int) + dirEntrySizeDelta name).toNat % 2 ^ 64 })) := by
  have hrun₁ := run_get_bind.mp hrun
  obtain ⟨_, t₁, hinsert, hrun₂⟩ := run_bind.mp hrun₁
  obtain ⟨_, t₂, happend, hrun₃⟩ := run_bind.mp hrun₂
  obtain ⟨_, t₃, hedit, hrun₄⟩ := run_bind.mp hrun₃
  obtain ⟨_, t₄, hsize, hcommit⟩ := run_bind.mp hrun₄
  let e : Entry := ⟨parentIno, nextDirIndexOffset mapBackend s parentIno, name, src.num,
    if src.isSymlink then ftSymlink else ftRegFile⟩
  have hindexKey : ∀ x ∈ N.entries, x.indexKey ≠ e.indexKey := indexKey_fresh h.shows h.items.index
  have hitemKey : ∀ x ∈ N.entries, x.itemKey ≠ e.itemKey := hfree.itemKey
  have hroot : src.num ≠ rootDirObjID := by
    intro heq
    exact Finset.disjoint_left.mp h.wf.apart h.wf.root (heq ▸ hsrc)
  obtain ⟨v', hitems', h₂⟩ := enter_shows (e := e) h.shows h.items h.wf.ok hindexKey hitemKey hroot
    hinsert (run_wrapErr.mp happend)
  obtain ⟨i, hi, h₃⟩ := h₂.edit (editsTo_nlink src.num now _ (· + 1)) hedit
  obtain ⟨j, hj, h₄⟩ := h₃.resize (dirEntrySizeDelta_ne_zero hname) (run_wrapErr.mp hsize)
  exact ⟨v', i, j, hitems', hi, hj, h₄.commit hcommit⟩

/-- One more name of a file. -/
theorem Holds.addLink {src : InodeItem} {parentIno : Nat} {name : Name} (h : Holds s N)
    (hs' : Intact s') (hsrc : src.num ∈ N.files) (hparent : parentIno ∈ N.dirs)
    (hfree : N.Free parentIno name) (hname : Ordinary name)
    (hidx : nextDirIndexOffset mapBackend s parentIno < 2 ^ 64) (hnum : src.num < 2 ^ 64)
    (hlinks : N.links src.num + 1 < 2 ^ 32)
    (hrun : Btrfs.addLink mapBackend now src parentIno name s = .ok () s') :
    Holds s' (N.add ⟨parentIno, nextDirIndexOffset mapBackend s parentIno, name, src.num,
      if src.isSymlink then ftSymlink else ftRegFile⟩) := by
  obtain ⟨v', i, j, hitems', hi, hj, hshows⟩ := h.addLink_shows hsrc hfree hname hrun
  let e : Entry := ⟨parentIno, nextDirIndexOffset mapBackend s parentIno, name, src.num,
    if src.isSymlink then ftSymlink else ftRegFile⟩
  have hindexKey : ∀ x ∈ N.entries, x.indexKey ≠ e.indexKey := indexKey_fresh h.shows h.items.index
  have hfresh : e ∉ N.entries := fun hmem => hindexKey e hmem rfl
  have hne : parentIno ≠ src.num := by
    rintro rfl
    exact Finset.disjoint_left.mp h.wf.apart hparent hsrc
  have hroot : src.num ≠ rootDirObjID := by
    intro heq
    exact Finset.disjoint_left.mp h.wf.apart h.wf.root (heq ▸ hsrc)
  have hokname : NameOk name := nameOk_of_item (e := e) (k := e.indexKey.key) hs'
    ((hshows.find?_key e.indexKey).trans (hitems'.index.eq_some (Finset.mem_insert_self _ _) trivial))
  have hkind : e.ft ≠ ftDir ∧ e.ft < 256 := by
    simp only [e]
    split_ifs <;> decide
  have hwf : (N.add e).WF := h.wf.enter subset_rfl subset_rfl h.wf.apart
    ⟨hidx, hnum, hkind.2, hokname, hname⟩ hindexKey hfree.itemKey hparent (Or.inr ⟨hkind.1, hsrc⟩) hroot
  refine Holds.of_shows hshows hitems' (fun n => ?_) hwf
  by_cases hn : n = src.num
  · subst hn
    rw [Function.update_of_ne (Ne.symm hne), Function.update_self]
    obtain ⟨i', hi', hisdir, hcount⟩ := h.inode_of_file hsrc
    obtain rfl := Option.some.inj (hi'.symm.trans hi)
    refine Or.inr ⟨hsrc, hisdir, ?_⟩
    have hadd := Names.links_add hfresh src.num
    rw [if_pos rfl] at hadd
    rw [hadd]
    simp only [hcount]
    exact Nat.mod_eq_of_lt hlinks
  · refine inodes_enter ?_ hfresh (hwf.sizeOf_lt _) h.wf.apart hparent hj hne (fun _ _ => Iff.rfl)
      (fun _ _ => Iff.rfl) n hn
    intro m hm
    rw [Function.update_of_ne (show m ≠ src.num from hm)]
    exact h.inodes m

/-! ## 6. Removing -/

theorem Names.WF.dir_ne_ino (h : N.WF) (he : e ∈ N.entries) : e.dir ≠ e.ino := by
  rcases h.target e he with ⟨hkind, -⟩ | ⟨-, hfile⟩
  · obtain ⟨rank, hrank⟩ := h.ranked
    have hlt := hrank e ⟨he, hkind⟩
    intro heq
    rw [heq] at hlt
    exact lt_irrefl _ hlt
  · rintro heq
    exact Finset.disjoint_left.mp h.apart (h.dir e he) (heq ▸ hfile)

/-- No entry stands in a file. -/
theorem Names.WF.empty_of_file (h : N.WF) (he : e ∈ N.entries) (hkind : e.ft ≠ ftDir) :
    ∀ x ∈ N.entries, x.dir ≠ e.ino := by
  intro x hx heq
  rcases h.target e he with ⟨hcontra, -⟩ | ⟨-, hfile⟩
  · exact hkind hcontra
  · exact Finset.disjoint_left.mp h.apart (h.dir x hx) (heq ▸ hfile)

theorem Names.WF.cut (h : N.WF) : (N.cut e).WF :=
  h.restrict h.root subset_rfl subset_rfl (Finset.erase_subset _ _)
    (fun x hx => h.dir x (Finset.mem_of_mem_erase hx)) (fun _ _ => id) (fun _ _ => id)

theorem unlink_shows (h : Holds s N) (he : e ∈ N.entries)
    (hrun : unlinkInodeOnly mapBackend now e.ino e.dir e.name s = .ok () s') :
    ∃ v' i j, ItemsRep v' (N.cut e).entries ∧ s.inodes e.ino = some i ∧
      (Function.update s.inodes e.ino (some { i with nlink := (i.nlink - 1) % 2 ^ 32 })) e.dir = some j ∧
      Shows s' v' (Function.update
        (Function.update s.inodes e.ino (some { i with nlink := (i.nlink - 1) % 2 ^ 32 })) e.dir
        (some { j with size := ((j.size : Int) + -dirEntrySizeDelta e.name).toNat % 2 ^ 64 })) := by
  obtain ⟨_, t₁, hindex, hrun₁⟩ := run_bind.mp hrun
  obtain ⟨_, t₂, hitem, hrun₂⟩ := run_bind.mp hrun₁
  obtain ⟨_, t₃, href, hrun₃⟩ := run_bind.mp hrun₂
  obtain ⟨_, t₄, hedit, hrun₄⟩ := run_bind.mp hrun₃
  obtain ⟨_, t₅, hsize, hrun₅⟩ := run_bind.mp hrun₄
  obtain ⟨_, t₆, htouch, hcommit⟩ := run_bind.mp hrun₅
  obtain ⟨v', hitems', h₃⟩ := leave_shows h.shows h.items h.wf he hindex hitem (run_wrapErr.mp href)
  obtain ⟨i, hi, h₄⟩ := h₃.edit (editsTo_nlink e.ino now _ (· - 1)) hedit
  have hdelta := dirEntrySizeDelta_ne_zero (h.wf.ok e he).plain
  obtain ⟨j, hj, h₅⟩ := h₄.resize (neg_ne_zero.mpr hdelta) (run_wrapErr.mp hsize)
  exact ⟨v', i, j, hitems', hi, hj, (h₅.touch (run_wrapErr.mp htouch)).commit hcommit⟩

/-- One of several names of a file goes. -/
theorem Holds.unlink (h : Holds s N) (he : e ∈ N.entries) (hfile : e.ino ∈ N.files)
    (hlinks : 1 < N.links e.ino)
    (hrun : unlinkInodeOnly mapBackend now e.ino e.dir e.name s = .ok () s') :
    Holds s' (N.cut e) := by
  obtain ⟨v', i, j, hitems', hi, hj, hshows⟩ := unlink_shows h he hrun
  have hne := h.wf.dir_ne_ino he
  refine Holds.of_shows hshows hitems' (fun n => ?_) h.wf.cut
  by_cases hn : n = e.ino
  · subst hn
    rw [Function.update_of_ne (Ne.symm hne), Function.update_self]
    obtain ⟨i', hi', hisdir, hcount⟩ := h.inode_of_file hfile
    obtain rfl := Option.some.inj (hi'.symm.trans hi)
    refine Or.inr ⟨hfile, hisdir, ?_⟩
    have hcut := Names.links_cut he e.ino
    have hlt := nlink_lt hi'
    rw [if_pos rfl] at hcut
    simp only [hcount] at hlt ⊢
    omega
  · refine inodes_leave ?_ he (h.wf.sizeOf_lt _) h.wf.apart (h.wf.dir e he) hj hne
      (fun _ _ => Iff.rfl) (fun _ _ => Iff.rfl) n hn
    intro m hm
    rw [Function.update_of_ne hm]
    exact h.inodes m

/-- The file that loses one of its names changes in its link count only. -/
theorem Holds.inode_unlink (h : Holds s N) (he : e ∈ N.entries) {i : InodeItem}
    (hi : s.inodes e.ino = some i)
    (hrun : unlinkInodeOnly mapBackend now e.ino e.dir e.name s = .ok () s') :
    s'.inodes e.ino = some { i with nlink := (i.nlink - 1) % 2 ^ 32 } := by
  obtain ⟨v', i', j, -, hi', -, hshows⟩ := unlink_shows h he hrun
  obtain rfl := Option.some.inj (hi'.symm.trans hi)
  rw [hshows.inodes, Function.update_of_ne (Ne.symm (h.wf.dir_ne_ino he)), Function.update_self]

/-- The namespace without an inode and its last name. -/
def Names.drop (N : Names) (e : Entry) : Names :=
  ⟨N.dirs.erase e.ino, N.files.erase e.ino, N.entries.erase e⟩

/-- The last name of an inode goes, and the inode with it. -/
theorem Holds.drop (h : Holds s N) (he : e ∈ N.entries)
    (honly : ∀ x ∈ N.entries, x.ino = e.ino → x = e) (hempty : ∀ x ∈ N.entries, x.dir ≠ e.ino)
    (hrun : dropInode mapBackend now e.ino e.dir e.name s = .ok () s') : Holds s' (N.drop e) := by
  obtain ⟨_, t₁, hfree, hrun₁⟩ := run_bind.mp hrun
  obtain rfl := run_modify.mp hfree
  obtain ⟨_, t₂, hclear, hrun₂⟩ := run_bind.mp hrun₁
  obtain ⟨_, t₃, hxattr, hrun₃⟩ := run_bind.mp hrun₂
  obtain ⟨_, t₄, href, hrun₄⟩ := run_bind.mp hrun₃
  obtain ⟨_, t₅, hinode, hrun₅⟩ := run_bind.mp hrun₄
  obtain ⟨_, t₆, hindex, hrun₆⟩ := run_bind.mp hrun₅
  obtain ⟨_, t₇, hitem, hrun₇⟩ := run_bind.mp hrun₆
  obtain ⟨_, t₈, hsize, hrun₈⟩ := run_bind.mp hrun₇
  obtain ⟨_, t₉, htouch, hcommit⟩ := run_bind.mp hrun₈
  have h₂ := h.clearBody (run_wrapErr.mp hclear)
  have hcalm : Calm nameTypes t₂ t₃ :=
    (always_tolerate (calm_deletePrefix (by decide))).of_ok hxattr
  have h₃ : Holds t₃ N := h₂.of_shows_same (h₂.shows.kept hcalm.kept)
  have h₄ := h₃.shows.forget (k := .ref e.ino e.dir) href
  have h₅ := h₄.eraseInode (run_wrapErr.mp hinode)
  have hname : ∀ x ∈ N.entries, x.dir = e.dir → x.name = e.name → x = e :=
    fun x hx hdir hname => h.wf.eq_of_name hx he hdir hname
  have h₆ := removeDirIndex_shows h₅ (h₃.items.index.other (by simp [NameKey.isIndex])) h.wf.ok he
    hname hindex
  have h₇ := h₆.forget (k := e.itemKey) hitem
  have hdelta := dirEntrySizeDelta_ne_zero (h.wf.ok e he).plain
  obtain ⟨j, hj, h₈⟩ := h₇.resize (neg_ne_zero.mpr hdelta) (run_wrapErr.mp hsize)
  have h₉ := (h₈.touch (run_wrapErr.mp htouch)).commit hcommit
  have hne := h.wf.dir_ne_ino he
  have hother : ∀ x ∈ N.entries.erase e, x.ino ≠ e.ino := by
    intro x hx heq
    obtain ⟨hxe, hxN⟩ := Finset.mem_erase.mp hx
    exact hxe (honly x hxN heq)
  -- the back-references go first here
  have hswap : Function.update (Function.update (Function.update t₃.names (.ref e.ino e.dir) none)
      e.indexKey none) e.itemKey none = Function.update (Function.update
      (Function.update t₃.names e.indexKey none) e.itemKey none) (.ref e.ino e.dir) none := by
    rw [Function.update_comm (a := NameKey.ref e.ino e.dir) (b := e.indexKey) (by simp [Entry.indexKey]),
      Function.update_comm (a := NameKey.ref e.ino e.dir) (b := e.itemKey) (by simp [Entry.itemKey])]
  have hitems' : ItemsRep (Function.update (Function.update (Function.update t₃.names
      (.ref e.ino e.dir) none) e.indexKey none) e.itemKey none) (N.entries.erase e) := by
    rw [hswap]
    refine h₃.items.leave (fun x hx heq => h.wf.index x hx e he heq)
      (fun x hx heq => h.wf.item x hx e he heq) ?_
    have hnone : backRefs (N.entries.erase e) e.ino e.dir = ∅ := by
      rw [Set.eq_empty_iff_forall_notMem]
      rintro x ⟨e', he', -, heq, -⟩
      exact hother e' he' heq
    rw [hnone]
    exact refsOf_none
  have hwf : (N.drop e).WF := by
    refine h.wf.restrict ?_ (Finset.erase_subset _ _) (Finset.erase_subset _ _)
      (Finset.erase_subset _ _) ?_ ?_ ?_
    · exact Finset.mem_erase.mpr ⟨Ne.symm (h.wf.noRoot e he), h.wf.root⟩
    · intro x hx
      have hxN := Finset.mem_of_mem_erase hx
      exact Finset.mem_erase.mpr ⟨hempty x hxN, h.wf.dir x hxN⟩
    · exact fun x hx hmem => Finset.mem_erase.mpr ⟨hother x hx, hmem⟩
    · exact fun x hx hmem => Finset.mem_erase.mpr ⟨hother x hx, hmem⟩
  refine Holds.of_shows h₉ hitems' (fun n => ?_) hwf
  by_cases hn : n = e.ino
  · subst hn
    rw [Function.update_of_ne (Ne.symm hne), Function.update_self]
    exact ⟨Finset.notMem_erase _ _, Finset.notMem_erase _ _⟩
  · refine inodes_leave ?_ he (h.wf.sizeOf_lt _) h.wf.apart (h.wf.dir e he) hj hne
      (fun m hm => ⟨Finset.mem_of_mem_erase, fun hmem => Finset.mem_erase.mpr ⟨hm, hmem⟩⟩)
      (fun m hm => ⟨Finset.mem_of_mem_erase, fun hmem => Finset.mem_erase.mpr ⟨hm, hmem⟩⟩) n hn
    intro m hm
    rw [Function.update_of_ne hm]
    exact h₃.inodes m

theorem Holds.hasOtherLinks_iff (h : Holds s N) (he : e ∈ N.entries) :
    hasOtherLinks mapBackend s e.ino = true ↔ e.ino ∈ N.files ∧ 1 < N.links e.ino := by
  have hlinks : ∀ {i : InodeItem}, s.inodes e.ino = some i →
      (hasOtherLinks mapBackend s e.ino = true ↔ 1 < i.nlink) := by
    intro i hi
    rw [hasOtherLinks, h.readInode_iff.mpr hi]
    exact decide_eq_true_iff
  rcases h.wf.target e he with ⟨-, hdir⟩ | ⟨-, hfile⟩
  · obtain ⟨i, hi, -, hone, -⟩ := h.inode_of_dir hdir
    rw [hlinks hi, hone]
    refine ⟨fun hlt => absurd hlt (lt_irrefl _), fun ⟨hfile, _⟩ => ?_⟩
    exact absurd hfile (Finset.disjoint_left.mp h.wf.apart hdir)
  · obtain ⟨i, hi, -, hcount⟩ := h.inode_of_file hfile
    rw [hlinks hi, hcount]
    exact ⟨fun hlt => ⟨hfile, hlt⟩, And.right⟩

/-- The namespace without an entry; with its last name the inode goes too. -/
def Names.remove (N : Names) (e : Entry) : Names := if 1 < N.links e.ino then N.cut e else N.drop e

theorem Names.entries_remove : (N.remove e).entries = N.entries.erase e := by
  unfold Names.remove
  split_ifs <;> rfl

/-- A directory has one name. -/
theorem Names.WF.mem_files_of_links (h : N.WF) (he : e ∈ N.entries) (hlinks : 1 < N.links e.ino) :
    e.ino ∈ N.files := by
  obtain ⟨x, hx, hne⟩ := Finset.exists_mem_ne hlinks e
  obtain ⟨hxN, hino⟩ := Finset.mem_filter.mp hx
  rcases h.target e he with ⟨hkind, hdir⟩ | ⟨-, hfile⟩
  · rcases h.target x hxN with ⟨hkind', -⟩ | ⟨-, hfile⟩
    · exact absurd (h.oneParent x ⟨hxN, hkind'⟩ e ⟨he, hkind⟩ hino) hne
    · exact absurd (hino ▸ hfile) (Finset.disjoint_left.mp h.apart hdir)
  · exact hfile

theorem Names.WF.dirs_remove (h : N.WF) (he : e ∈ N.entries) :
    (N.remove e).dirs = N.dirs.erase e.ino := by
  unfold Names.remove
  split_ifs with hlinks
  · refine (Finset.erase_eq_of_notMem fun hdir => ?_).symm
    exact Finset.disjoint_left.mp h.apart hdir (h.mem_files_of_links he hlinks)
  · rfl

/-- An entry goes; a directory only when it is empty. -/
theorem Holds.remove (h : Holds s N) (he : e ∈ N.entries)
    (hempty : ∀ x ∈ N.entries, x.dir ≠ e.ino)
    (hrun : removeInode mapBackend now e.ino e.dir e.name s = .ok () s') : Holds s' (N.remove e) := by
  unfold Names.remove
  rcases removeInode_inv hrun with ⟨hothers, hunlink⟩ | ⟨hlast, hdrop⟩
  · obtain ⟨hfile, hlinks⟩ := (h.hasOtherLinks_iff he).mp hothers
    rw [if_pos hlinks]
    exact h.unlink he hfile hlinks hunlink
  · have hlinks : ¬ 1 < N.links e.ino := by
      intro hlinks
      have hothers := (h.hasOtherLinks_iff he).mpr ⟨h.wf.mem_files_of_links he hlinks, hlinks⟩
      rw [hlast] at hothers
      cases hothers
    rw [if_neg hlinks]
    refine h.drop he (fun x hx heq => ?_) hempty hdrop
    exact Finset.card_le_one.mp (not_lt.mp hlinks) x (Finset.mem_filter.mpr ⟨hx, heq⟩) e
      (Finset.mem_filter.mpr ⟨he, rfl⟩)

/-- Every inode but the root directory has a name. -/
def Names.Named (N : Names) : Prop :=
  ∀ n, n ∈ N.dirs ∨ n ∈ N.files → n ≠ rootDirObjID → ∃ e ∈ N.entries, e.ino = n

theorem Names.Named.remove (h : N.Named) : (N.remove e).Named := by
  intro n hn hroot
  rw [Names.entries_remove]
  unfold Names.remove at hn
  split_ifs at hn with hlinks
  · obtain ⟨x, hx, rfl⟩ := h n hn hroot
    by_cases hxe : x = e
    · -- one of several names went
      subst hxe
      obtain ⟨y, hy, hne⟩ := Finset.exists_mem_ne hlinks x
      obtain ⟨hyN, hino⟩ := Finset.mem_filter.mp hy
      exact ⟨y, Finset.mem_erase.mpr ⟨hne, hyN⟩, hino⟩
    · exact ⟨x, Finset.mem_erase.mpr ⟨hxe, hx⟩, rfl⟩
  · have hmem : n ≠ e.ino ∧ (n ∈ N.dirs ∨ n ∈ N.files) :=
      hn.elim (fun hd => (Finset.mem_erase.mp hd).imp_right Or.inl)
        fun hf => (Finset.mem_erase.mp hf).imp_right Or.inr
    obtain ⟨x, hx, rfl⟩ := h n hmem.2 hroot
    refine ⟨x, Finset.mem_erase.mpr ⟨?_, hx⟩, rfl⟩
    rintro rfl
    exact hmem.1 rfl

/-! ## 7. Removing everything below a directory -/

/-- What a listing shows of an entry. -/
def Entry.listed (e : Entry) : DirEntry := ⟨e.ino, e.name, e.ft⟩

theorem Entry.Ok.parseDirItemsAll (h : e.Ok) : parseDirItemsAll e.payload = [e.listed] := by
  rw [Btrfs.parseDirItemsAll, Entry.payload,
    parseDirEntries_encodeDirItem typeInodeItem h.ino h.ft h.name]
  simp [h.plain.2, Entry.listed]

/-- Items that stand for entries are those of a list of entries, each once. -/
theorem exists_listing {f : Entry → NameKey} {P : Entry → Prop} {q : Key → Bool}
    (hdistinct : s.records.Distinct q)
    (hmem : ∀ x, x ∈ s.records.keep q ↔ ∃ e ∈ E, P e ∧ x = ((f e).key, e.payload))
    (hinj : ∀ x ∈ E, ∀ y ∈ E, f x = f y → x = y) :
    ∃ l : List Entry, l.Nodup ∧ (∀ x, x ∈ l ↔ x ∈ E ∧ P x) ∧
      s.records.keep q = l.map fun e => ((f e).key, e.payload) := by
  have hsplit : ∀ K : List (Key × Bytes),
      (∀ x ∈ K, ∃ e ∈ E, P e ∧ x = ((f e).key, e.payload)) →
      ∃ l : List Entry, (∀ x ∈ l, x ∈ E ∧ P x) ∧ K = l.map fun e => ((f e).key, e.payload) := by
    intro K
    induction K with
    | nil => exact fun _ => ⟨[], nofun, rfl⟩
    | cons x K ih =>
      intro hK
      obtain ⟨e, he, hP, hx⟩ := hK x List.mem_cons_self
      obtain ⟨l, hl, hmap⟩ := ih fun y hy => hK y (List.mem_cons_of_mem _ hy)
      refine ⟨e :: l, ?_, by rw [List.map_cons, ← hx, ← hmap]⟩
      exact List.forall_mem_cons.mpr ⟨⟨he, hP⟩, hl⟩
  obtain ⟨l, hl, hmap⟩ := hsplit _ fun x hx => (hmem x).mp hx
  refine ⟨l, ?_, fun x => ⟨hl x, fun ⟨hx, hP⟩ => ?_⟩, hmap⟩
  · rw [Records.Distinct, hmap, List.map_map] at hdistinct
    exact hdistinct.of_map
  · have hkept := (hmem _).mpr ⟨x, hx, hP, rfl⟩
    rw [hmap] at hkept
    obtain ⟨y, hy, heq⟩ := List.mem_map.mp hkept
    have hkey := NameKey.key_injective (Prod.mk.inj heq).1
    exact hinj y (hl y hy).1 x hx hkey ▸ hy

/-- A listing has the entries of the directory, each once. -/
theorem Listed.readDir (h : Listed s E) (dir : Nat) : ∃ l : List Entry, l.Nodup ∧
    (∀ x, x ∈ l ↔ x ∈ E ∧ x.dir = dir) ∧ readDir mapBackend s dir = l.map Entry.listed := by
  have hdistinct : s.records.Distinct (inPrefix dir typeDirIndex) := by
    refine h.distinct.mono fun k hk => ?_
    simp only [inPrefix, decide_eq_true_eq] at hk
    simp [isDirKey, dirTypes, hk.2]
  obtain ⟨l, hnodup, hl, hmap⟩ := exists_listing hdistinct (fun _ => h.mem_dirIndex) h.indexOnce
  refine ⟨l, hnodup, hl, ?_⟩
  have hread : Btrfs.readDir mapBackend s dir =
      (s.records.keep (inPrefix dir typeDirIndex)).flatMap fun x => parseDirItemsAll x.2 := by
    simp only [Btrfs.readDir, mapBackend, mapCollect]
    cases s.records.keep (inPrefix dir typeDirIndex) <;> rfl
  rw [hread, hmap, List.flatMap_map, ← List.flatMap_pure_eq_map]
  exact List.flatMap_congr fun x hx => (h.ok x ((hl x).mp hx).1).parseDirItemsAll

theorem Holds.readDir (h : Holds s N) (dir : Nat) : ∃ l : List Entry, l.Nodup ∧
    (∀ x, x ∈ l ↔ x ∈ N.entries ∧ x.dir = dir) ∧
    readDir mapBackend s dir = l.map Entry.listed := h.listed.readDir dir

theorem Holds.of_records (h : Holds s N) (hrec : s'.records = s.records) : Holds s' N := by
  refine h.of_shows_same (h.shows.kept ?_)
  rw [MapFs.ofTypes, hrec]
  rfl

/-- No DIR_INDEX item is left to delete in an empty directory. -/
theorem Holds.clearIndex {dir : Nat} (h : Holds s N) (hempty : ∀ x ∈ N.entries, x.dir ≠ dir)
    (hrun : mapBackend.cowDeletePrefix dir typeDirIndex s = .ok () s') : s'.records = s.records := by
  have hnil : s.records.keep (inPrefix dir typeDirIndex) = [] := by
    rw [List.eq_nil_iff_forall_not_mem]
    intro x hx
    obtain ⟨e, he, hdir, -⟩ := (h.shows.mem_dirIndex h.items.index).mp hx
    exact hempty e he hdir
  have hrec := (deletePrefix_effect hrun).2
  rw [Records.removeAll_of_keep_eq_nil hnil] at hrec
  exact hrec

/-- Entries are removed one after another, each when nothing stands in it any more; in between
    there may be steps that leave the items alone. -/
inductive Removals (now : Timespec) (s : MapFs) (N : Names) : List Entry → MapFs → Names → Prop
  | nil : Removals now s N [] s N
  | same {l : List Entry} {s₁ s₂ : MapFs} {N₁ : Names} (h : Removals now s N l s₁ N₁)
      (hrec : s₂.records = s₁.records) : Removals now s N l s₂ N₁
  | remove {l : List Entry} {s₁ s₂ : MapFs} {N₁ : Names} {e : Entry} (h : Removals now s N l s₁ N₁)
      (he : e ∈ N₁.entries) (hempty : ∀ x ∈ N₁.entries, x.dir ≠ e.ino)
      (hrun : removeInode mapBackend now e.ino e.dir e.name s₁ = .ok () s₂) :
      Removals now s N (e :: l) s₂ (N₁.remove e)

namespace Removals

variable {l l' : List Entry} {N' N₁ N₂ : Names}

theorem trans (h : Removals now s N l s₁ N₁) (h' : Removals now s₁ N₁ l' s₂ N₂) :
    Removals now s N (l' ++ l) s₂ N₂ := by
  induction h' with
  | nil => exact h
  | same _ hrec ih => exact ih.same hrec
  | remove _ he hempty hrun ih => exact ih.remove he hempty hrun

theorem holds (h : Removals now s N l s' N') (hs : Holds s N) : Holds s' N' := by
  induction h with
  | nil => exact hs
  | same _ hrec ih => exact ih.of_records hrec
  | remove _ he hempty hrun ih => exact ih.remove he hempty hrun

theorem named (h : Removals now s N l s' N') (hN : N.Named) : N'.Named := by
  induction h with
  | nil => exact hN
  | same _ _ ih => exact ih
  | remove _ _ _ _ ih => exact ih.remove

theorem mem_entries (h : Removals now s N l s' N') (x : Entry) :
    x ∈ N'.entries ↔ x ∈ N.entries ∧ x ∉ l := by
  induction h with
  | nil => simp
  | same _ _ ih => exact ih
  | remove _ _ _ _ ih =>
    rw [Names.entries_remove, Finset.mem_erase, ih, List.mem_cons, not_or]
    tauto

theorem sub (h : Removals now s N l s' N') : N'.entries ⊆ N.entries := fun x hx =>
  ((h.mem_entries x).mp hx).1

theorem mem (h : Removals now s N l s' N') : ∀ x ∈ l, x ∈ N.entries := by
  induction h with
  | nil => exact nofun
  | same _ _ ih => exact ih
  | remove h he _ _ ih => exact List.forall_mem_cons.mpr ⟨h.sub he, ih⟩

/-- What stood in a removed directory was removed. -/
theorem mem_of_dir (h : Removals now s N l s' N') {x y : Entry} (hx : x ∈ l) (hy : y ∈ N.entries)
    (hdir : y.dir = x.ino) : y ∈ l := by
  induction h with
  | nil => cases hx
  | same _ _ ih => exact ih hx
  | remove h _ hempty _ ih =>
    rcases List.mem_cons.mp hx with rfl | hx
    · by_contra hnot
      have hyl := fun hmem => hnot (List.mem_cons_of_mem _ hmem)
      exact hempty y ((h.mem_entries y).mpr ⟨hy, hyl⟩) hdir
    · exact List.mem_cons_of_mem _ (ih hx)

/-- When a directory is empty at the end, everything below it was removed. -/
theorem mem_of_below {dir : Nat} (h : Removals now s N l s' N')
    (hempty : ∀ x ∈ N'.entries, x.dir ≠ dir) {x : Entry} (hx : x ∈ N.entries)
    (hbelow : Below Entry.dir Entry.ino N.dirEntries dir x.dir) : x ∈ l := by
  generalize hb : x.dir = b at hbelow
  induction hbelow generalizing x with
  | refl =>
    by_contra hnot
    exact hempty x ((h.mem_entries x).mpr ⟨hx, hnot⟩) hb
  | tail _ hstep ih =>
    obtain ⟨z, hz, hzdir, hzino⟩ := hstep
    exact h.mem_of_dir (ih hz.1 hzdir) hx (hb.trans hzino.symm)

end Removals

/-- One turn of the loop: what is below the entry, then the entry. -/
theorem Holds.purgeEntry {depth : Nat} (h : Holds s N) (he : e ∈ N.entries)
    (ih : ∀ {dir : Nat} {s s' : MapFs} {N : Names}, Holds s N →
      purgeDirContents mapBackend now depth dir s = .ok () s' →
      ∃ l N', Removals now s N l s' N' ∧ (∀ x ∈ N'.entries, x.dir ≠ dir) ∧
        ∀ x ∈ l, Below Entry.dir Entry.ino N.dirEntries dir x.dir)
    (hrun : (do
      if e.ft = ftDir then do
        purgeDirContents mapBackend now depth e.ino
        step "btrfs purgedir: dot entries in %q: %w" [.names [e.name]]
          (mapBackend.cowDeletePrefix e.ino typeDirIndex)
      removeInode mapBackend now e.ino e.dir e.name : FileM MapFs Unit) s = .ok () s') :
    ∃ l N', Removals now s N (e :: l) s' N' ∧
      ∀ x ∈ l, e.ft = ftDir ∧ Below Entry.dir Entry.ino N.dirEntries e.ino x.dir := by
  by_cases hkind : e.ft = ftDir
  · simp only [hkind, if_true] at hrun
    obtain ⟨_, t₁, hpurge, hrun₁⟩ := run_bind.mp hrun
    obtain ⟨_, t₂, hclear, hremove⟩ := run_bind.mp hrun₁
    obtain ⟨l, N₁, hrem, hempty, hbelow⟩ := ih h hpurge
    have hrec := (hrem.holds h).clearIndex hempty (run_wrapErr.mp hclear)
    obtain ⟨rank, hrank⟩ := h.wf.ranked
    -- the entry itself is not below its directory
    have he₁ : e ∈ N₁.entries := by
      refine (hrem.mem_entries e).mpr ⟨he, fun hel => ?_⟩
      exact absurd (hrank.le_of_below (hbelow e hel)) (not_le.mpr (hrank e ⟨he, hkind⟩))
    exact ⟨l, _, (hrem.same hrec).remove he₁ hempty hremove, fun x hx => ⟨hkind, hbelow x hx⟩⟩
  · simp only [hkind, if_false] at hrun
    exact ⟨[], _, Removals.nil.remove he (h.wf.empty_of_file he hkind) hrun, nofun⟩

/-- The loop: the entries still to come are there, and all that goes is below the directory. -/
theorem Holds.purgeLoop {dir : Nat} {g : DirEntry → FileM MapFs Unit} {l : List Entry}
    (hg : ∀ {x : Entry} {t t' : MapFs} {M : Names}, Holds t M → x ∈ M.entries → x.dir = dir →
      g x.listed t = .ok () t' → ∃ r M', Removals now t M (x :: r) t' M' ∧
        ∀ y ∈ r, x.ft = ftDir ∧ Below Entry.dir Entry.ino M.dirEntries x.ino y.dir)
    (h : Holds s N) (hnodup : l.Nodup) (hl : ∀ x ∈ l, x ∈ N.entries ∧ x.dir = dir)
    (hrun : (l.map Entry.listed).forM g s = .ok () s') :
    ∃ r N', Removals now s N r s' N' ∧ (∀ x ∈ l, x ∈ r) ∧
      ∀ x ∈ r, Below Entry.dir Entry.ino N.dirEntries dir x.dir := by
  induction l generalizing s N with
  | nil =>
    obtain rfl := run_forM_nil.mp hrun
    exact ⟨[], N, .nil, nofun, nofun⟩
  | cons e l ih =>
    rw [List.map_cons] at hrun
    obtain ⟨t₁, hturn, hrest⟩ := run_forM_cons.mp hrun
    obtain ⟨he, rfl⟩ := hl e List.mem_cons_self
    obtain ⟨hnot, hnodup'⟩ := List.nodup_cons.mp hnodup
    obtain ⟨r₁, N₁, hrem₁, hbelow₁⟩ := hg h he rfl hturn
    obtain ⟨rank, hrank⟩ := h.wf.ranked
    have hl₁ : ∀ x ∈ l, x ∈ N₁.entries ∧ x.dir = e.dir := by
      intro x hx
      obtain ⟨hxN, hxdir⟩ := hl x (List.mem_cons_of_mem _ hx)
      refine ⟨(hrem₁.mem_entries x).mpr ⟨hxN, fun hmem => ?_⟩, hxdir⟩
      rcases List.mem_cons.mp hmem with rfl | hmem
      · exact hnot hx
      · obtain ⟨hkind, hbelow⟩ := hbelow₁ x hmem
        rw [hxdir] at hbelow
        exact absurd (hrank.le_of_below hbelow) (not_le.mpr (hrank e ⟨he, hkind⟩))
    obtain ⟨r, N', hrem, hall, hbelow⟩ := ih (hrem₁.holds h) hnodup' hl₁ hrest
    refine ⟨_, N', hrem₁.trans hrem, ?_, fun x hx => ?_⟩
    · intro x hx
      rcases List.mem_cons.mp hx with rfl | hx
      · exact List.mem_append_right _ List.mem_cons_self
      · exact List.mem_append_left _ (hall x hx)
    · rcases List.mem_append.mp hx with hx | hx
      · exact (hbelow x hx).mono fun y hy => ⟨hrem₁.sub hy.1, hy.2⟩
      · rcases List.mem_cons.mp hx with rfl | hx
        · exact Relation.ReflTransGen.refl
        · obtain ⟨hkind, hbelow⟩ := hbelow₁ x hx
          exact Relation.ReflTransGen.head ⟨e, ⟨he, hkind⟩, rfl, rfl⟩ hbelow

/-- A purge removes the entries below the directory, and no others. -/
theorem Holds.purge {depth dir : Nat} (h : Holds s N)
    (hrun : purgeDirContents mapBackend now depth dir s = .ok () s') :
    ∃ l N', Removals now s N l s' N' ∧ (∀ x ∈ N'.entries, x.dir ≠ dir) ∧
      ∀ x ∈ l, Below Entry.dir Entry.ino N.dirEntries dir x.dir := by
  induction depth generalizing dir s s' N with
  | zero =>
    rw [purgeDirContents] at hrun
    cases run_throw.mp hrun
  | succ depth ih =>
    rw [purgeDirContents] at hrun
    have hloop := run_get_bind.mp hrun
    obtain ⟨l, hnodup, hl, hread⟩ := h.readDir dir
    rw [hread] at hloop
    have hturn : ∀ {x : Entry} {t t' : MapFs} {M : Names}, Holds t M → x ∈ M.entries → x.dir = dir →
        (do
          if x.ft = ftDir then do
            purgeDirContents mapBackend now depth x.ino
            step "btrfs purgedir: dot entries in %q: %w" [.names [x.name]]
              (mapBackend.cowDeletePrefix x.ino typeDirIndex)
          removeInode mapBackend now x.ino dir x.name : FileM MapFs Unit) t = .ok () t' →
        ∃ r M', Removals now t M (x :: r) t' M' ∧
          ∀ y ∈ r, x.ft = ftDir ∧ Below Entry.dir Entry.ino M.dirEntries x.ino y.dir := by
      rintro x t t' M hM hx rfl hrun
      exact hM.purgeEntry hx ih hrun
    obtain ⟨r, N', hrem, hall, hbelow⟩ := Holds.purgeLoop hturn h hnodup (fun x hx => (hl x).mp hx)
      hloop
    refine ⟨r, N', hrem, fun x hx hdir => ?_, hbelow⟩
    exact ((hrem.mem_entries x).mp hx).2 (hall x ((hl x).mpr ⟨hrem.sub hx, hdir⟩))

/-! ## 8. Moving -/

/-- The namespace with an entry in another place. -/
def Names.move (N : Names) (e e' : Entry) : Names :=
  { N with entries := insert e' (N.entries.erase e) }

theorem Holds.move {newParentIno : Nat} {newName : Name} (h : Holds s N) (hs' : Intact s')
    (he : e ∈ N.entries) (hparent : newParentIno ∈ N.dirs)
    (hfree : (N.cut e).Free newParentIno newName) (hname : Ordinary newName)
    (hidx : nextDirIndexOffset mapBackend s newParentIno < 2 ^ 64)
    (hbelow : e.ft = ftDir → ¬ Below Entry.dir Entry.ino N.dirEntries e.ino newParentIno)
    (hrun : moveEntry mapBackend now e.ino e.ft e.dir newParentIno e.name newName s = .ok () s') :
    ∃ idx, Holds s' (N.move e ⟨newParentIno, idx, newName, e.ino, e.ft⟩) := by
  obtain ⟨_, t₁, hindex, hrun₁⟩ := run_bind.mp hrun
  obtain ⟨_, t₂, hitem, hrun₂⟩ := run_bind.mp hrun₁
  obtain ⟨_, t₃, href, hrun₃⟩ := run_bind.mp hrun₂
  have hrun₄ := run_get_bind.mp hrun₃
  obtain ⟨_, t₅, hinsert, hrun₅⟩ := run_bind.mp hrun₄
  obtain ⟨_, t₆, happend, hrun₆⟩ := run_bind.mp hrun₅
  obtain ⟨_, t₇, hshrink, hrun₇⟩ := run_bind.mp hrun₆
  obtain ⟨_, t₈, hgrow, hrun₈⟩ := run_bind.mp hrun₇
  obtain ⟨_, t₉, htouch, hrun₉⟩ := run_bind.mp hrun₈
  obtain ⟨v₃, hitems₃, h₃⟩ := leave_shows h.shows h.items h.wf he hindex hitem (run_wrapErr.mp href)
  let e' : Entry := ⟨newParentIno, nextDirIndexOffset mapBackend t₃ newParentIno, newName, e.ino, e.ft⟩
  have hindexKey : ∀ x ∈ N.entries.erase e, x.indexKey ≠ e'.indexKey :=
    indexKey_fresh h₃ hitems₃.index
  have hitemKey : ∀ x ∈ N.entries.erase e, x.itemKey ≠ e'.itemKey := hfree.itemKey
  obtain ⟨v₆, hitems', h₆⟩ := enter_shows (e := e') h₃ hitems₃
    (fun x hx => h.wf.ok x (Finset.mem_of_mem_erase hx)) hindexKey hitemKey (h.wf.noRoot e he) hinsert
    (run_wrapErr.mp happend)
  have hdelta := dirEntrySizeDelta_ne_zero (h.wf.ok e he).plain
  obtain ⟨i, hi, h₇⟩ := h₆.resize (neg_ne_zero.mpr hdelta) (run_wrapErr.mp hshrink)
  obtain ⟨j, hj, h₈⟩ := h₇.resize (dirEntrySizeDelta_ne_zero hname) (run_wrapErr.mp hgrow)
  have h₉ := h₈.touch (run_wrapErr.mp htouch)
  have hshows : Shows s' v₆ (Function.update (Function.update s.inodes e.dir
      (some { i with size := ((i.size : Int) + -dirEntrySizeDelta e.name).toNat % 2 ^ 64 }))
      newParentIno
      (some { j with size := ((j.size : Int) + dirEntrySizeDelta newName).toNat % 2 ^ 64 })) := by
    by_cases hsame : e.dir ≠ newParentIno
    · rw [if_pos hsame] at hrun₉
      obtain ⟨_, t₁₀, htouch', hcommit⟩ := run_bind.mp hrun₉
      exact (h₉.touch (run_wrapErr.mp htouch')).commit hcommit
    · rw [if_neg hsame] at hrun₉
      exact h₉.commit hrun₉
  have hokname : NameOk newName := nameOk_of_item (e := e') (k := e'.indexKey.key) hs'
    ((hshows.find?_key e'.indexKey).trans (hitems'.index.eq_some (Finset.mem_insert_self _ _) trivial))
  have hidxlt : e'.idx < 2 ^ 64 := by
    refine lt_of_le_of_lt (nextIndex_le h₃ hitems₃.index (three_le_nextIndex s newParentIno) ?_) hidx
    rintro x hx rfl
    exact lt_nextIndex h.shows h.items.index (Finset.mem_of_mem_erase hx)
  have hok := h.wf.ok e he
  have hwf : (N.move e e').WF := h.wf.move he rfl rfl ⟨hidxlt, hok.ino, hok.ft, hokname, hname⟩
    hindexKey hitemKey hparent hbelow
  have hne := h.wf.dir_ne_ino he
  have hne' : newParentIno ≠ e.ino := by
    rcases h.wf.target e he with ⟨hkind, -⟩ | ⟨-, hfile⟩
    · rintro rfl
      exact hbelow hkind Relation.ReflTransGen.refl
    · rintro rfl
      exact Finset.disjoint_left.mp h.wf.apart hparent hfile
  have hfresh : e' ∉ (N.cut e).entries := fun hmem => hindexKey e' hmem rfl
  refine ⟨_, Holds.of_shows hshows hitems' (fun n => ?_) hwf⟩
  by_cases hn : n = e.ino
  · -- one name less and one more
    subst hn
    rw [Function.update_of_ne (Ne.symm hne'), Function.update_of_ne (Ne.symm hne)]
    have hlinks := Names.links_add hfresh e.ino
    have hsize := Names.sizeOf_add hfresh e.ino
    rw [if_pos rfl] at hlinks
    rw [if_neg hne'] at hsize
    refine (h.inodes e.ino).of_eq Iff.rfl Iff.rfl ?_ ?_
    · have hcut := Names.links_cut he e.ino
      rw [if_pos rfl] at hcut
      exact hlinks.trans hcut.symm
    · have hcut := Names.sizeOf_cut he e.ino
      rw [if_neg hne] at hcut
      exact hsize.trans hcut.symm
  · have hleave := inodes_leave (fun m _ => h.inodes m) he (h.wf.sizeOf_lt _) h.wf.apart
      (h.wf.dir e he) hi hne (fun _ _ => Iff.rfl) (fun _ _ => Iff.rfl)
    exact inodes_enter (N := N.cut e) (e := e') hleave hfresh (hwf.sizeOf_lt _) h.wf.apart hparent hj hne'
      (fun _ _ => Iff.rfl) (fun _ _ => Iff.rfl) n hn

end Btrfs
