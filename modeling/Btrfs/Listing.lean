/-
  Btrfs/Listing.lean
  ==================
  **Lookups against listings.**

  A name has two items in its directory: a DIR_INDEX, which listings go by, and a DIR_ITEM
  under the hash of the name, which lookups try first.  Both come and go together, as long
  as no two names of a directory have the same hash: deletes go by the hash alone, and of
  two DIR_ITEMs with one key they take the first.  Nothing else matters here, neither what
  the entries lead to nor whether the directories form a tree.
-/
import Btrfs.Accounts
import Btrfs.Confined

namespace Btrfs

open Lib

variable {s s' s₁ s₂ : MapFs} {E E' : Finset Entry} {e : Entry} {now : Timespec}
  {script : List (List NodeEvent)}

/-! ## 1. Steps -/

/-- The keys of items other than DIR_ITEMs and DIR_INDEX items. -/
def Elsewhere (k : Key) : Prop := k.typ ∉ dirTypes

theorem Elsewhere.of {obj typ off : Nat} (h : typ ∉ dirTypes) : Elsewhere ⟨obj, typ, off⟩ := h

theorem FileKey.elsewhere {ino : Nat} {k : Key} (h : FileKey ino k) : Elsewhere k := by
  rcases h with ⟨-, htyp⟩ | rfl
  · have hall : ∀ t ∈ [typeInodeRef, typeExtentData, typeXattrItem], t ∉ dirTypes := by decide
    exact hall _ htyp
  · exact Elsewhere.of (by decide)

theorem ItemsStored.congr {C : NameKey → Prop} {f : Entry → NameKey} {v v' : NameKey → Option Bytes}
    (h : ItemsStored C f v E) (heq : ∀ k, C k → v' k = v k) : ItemsStored C f v' E := by
  intro k d hk
  rw [heq k hk]
  exact h k d hk

theorem names_insert {k : NameKey} {d : Bytes} (hnone : s.names k = none)
    (hrec : s'.records = s.records.insert k.key d) : s'.names = Function.update s.names k (some d) := by
  have hfind : s.records.find? k.key = none := hnone
  funext k'
  rw [MapFs.names, hrec]
  by_cases heq : k' = k
  · rw [heq, Function.update_self, Records.find?_insert_self, hfind]
    rfl
  · rw [Function.update_of_ne heq,
      Records.find?_insert_of_ne fun hkey => heq (NameKey.key_injective hkey).symm]
    rfl

theorem names_erase {k : NameKey} (hdistinct : s.records.Distinct isDirKey)
    (hk : isDirKey k.key = true) (hrec : s'.records = s.records.erase k.key) :
    s'.names = Function.update s.names k none := by
  funext k'
  rw [MapFs.names, hrec]
  by_cases heq : k' = k
  · rw [heq, Function.update_self, hdistinct.find?_erase_self hk]
  · rw [Function.update_of_ne heq,
      Records.find?_erase_of_ne fun hkey => heq (NameKey.key_injective hkey).symm]
    rfl

theorem isDirKey_indexKey (e : Entry) : isDirKey e.indexKey.key = true := rfl

theorem isDirKey_itemKey (e : Entry) : isDirKey e.itemKey.key = true := rfl

namespace Listed

theorem of_records (h : Listed s E) (hrec : s'.records = s.records) : Listed s' E := by
  have hnames : s'.names = s.names := by
    funext k
    rw [MapFs.names, MapFs.names, hrec]
  exact ⟨hrec ▸ h.distinct, hnames ▸ h.index, hnames ▸ h.item, h.ok, h.indexOnce, h.itemOnce⟩

/-- A step that touches other items. -/
theorem elsewhere (h : Listed s E) (hconf : Confined Elsewhere s s') : Listed s' E := by
  have hkeep : s'.records.keep isDirKey = s.records.keep isDirKey :=
    hconf.kept isDirKey fun k hk hnot => hnot (of_decide_eq_true hk)
  have hnames : ∀ k : NameKey, isDirKey k.key = true → s'.names k = s.names k := fun k hk =>
    Records.find?_of_keep hkeep hk
  refine ⟨h.distinct.of_keep hkeep, h.index.congr fun k hk => hnames k ?_,
    h.item.congr fun k hk => hnames k ?_, h.ok, h.indexOnce, h.itemOnce⟩
  · cases k with
    | index => rfl
    | item => exact absurd hk id
    | ref => exact absurd hk id
  · cases k with
    | index => exact absurd hk id
    | item => rfl
    | ref => exact absurd hk id

/-- A new entry. -/
theorem enter {indexErr itemErr : String} {args : List ErrArg} (h : Listed s E) (hok : e.Ok)
    (hindex : ∀ x ∈ E, x.indexKey ≠ e.indexKey) (hitem : ∀ x ∈ E, x.itemKey ≠ e.itemKey)
    (hrun : insertDirEntry mapBackend indexErr itemErr args e.dir e.idx e.name e.payload s =
      .ok () s') : Listed s' (insert e E) := by
  obtain ⟨_, t, hins, hins'⟩ := run_bind.mp hrun
  obtain ⟨-, hrec, -⟩ := insert_effect (run_wrapErr.mp hins)
  obtain ⟨-, hrec', -⟩ := insert_effect (run_wrapErr.mp hins')
  have hnone : s.names e.indexKey = none := h.index.eq_none trivial hindex
  have hnames : t.names = Function.update s.names e.indexKey (some e.payload) :=
    names_insert hnone hrec
  have hnone' : t.names e.itemKey = none := by
    rw [hnames, Function.update_of_ne (by simp [Entry.itemKey, Entry.indexKey])]
    exact h.item.eq_none trivial hitem
  have hnames' : s'.names = Function.update t.names e.itemKey (some e.payload) :=
    names_insert hnone' hrec'
  rw [hnames] at hnames'
  have hdistinct : t.records.Distinct isDirKey := by
    rw [hrec]
    exact h.distinct.insert hnone
  refine ⟨?_, ?_, ?_, ?_, Names.injOn_insert h.indexOnce hindex, Names.injOn_insert h.itemOnce hitem⟩
  · rw [hrec']
    exact hdistinct.insert hnone'
  · rw [hnames']
    exact (h.index.add hindex).other (by simp [NameKey.isIndex, Entry.itemKey])
  · rw [hnames']
    exact (h.item.other (by simp [NameKey.isItem, Entry.indexKey])).add hitem
  · exact (Finset.forall_mem_insert _ _ _).mpr ⟨hok, h.ok⟩


end Listed

/-- The entries but for one name of a directory. -/
def withoutName (E : Finset Entry) (dir : Nat) (name : Name) : Finset Entry :=
  E.filter fun x => ¬ (x.dir = dir ∧ x.name = name)

theorem mem_withoutName {dir : Nat} {name : Name} {x : Entry} :
    x ∈ withoutName E dir name ↔ x ∈ E ∧ ¬ (x.dir = dir ∧ x.name = name) := Finset.mem_filter

namespace Listed

variable {dir ino : Nat} {name : Name}

theorem withoutName_of_mem (h : Listed s E) (he : e ∈ E) : withoutName E e.dir e.name = E.erase e := by
  ext x
  rw [mem_withoutName, Finset.mem_erase, and_comm]
  refine and_congr_left fun hx => not_congr ⟨fun ⟨hdir, hname⟩ => h.eq_of_name hx he hdir hname, ?_⟩
  rintro rfl
  exact ⟨rfl, rfl⟩

/-- An entry goes with both of its items. -/
theorem leave_mem {format itemErr : String} (h : Listed s E) (he : e ∈ E)
    (hindex : removeDirIndex mapBackend format e.dir e.name s = .ok () s₁)
    (hitem : tolerateNotFound itemErr
      (mapBackend.cowDelete ⟨e.dir, typeDirItem, hashDirName e.name⟩) s₁ = .ok () s₂) :
    Listed s₂ (E.erase e) := by
  have hrec₁ : s₁.records = s.records.erase e.indexKey.key := by
    rw [removeDirIndex_eq] at hindex
    have hmem : (e.indexKey.key, e.payload) ∈ s.records.keep (inPrefix e.dir typeDirIndex) :=
      h.mem_dirIndex.mpr ⟨e, he, rfl, rfl⟩
    cases hfind : (s.records.keep (inPrefix e.dir typeDirIndex)).find? fun x =>
        decide (dirItemName x.2 = some e.name) with
    | none =>
      have habsent := List.find?_eq_none.mp hfind _ hmem
      rw [Entry.payload, dirItemName_encodeDirItem typeInodeItem (h.ok e he).name] at habsent
      simp at habsent
    | some x =>
      obtain ⟨e', he', hdir, rfl⟩ := h.mem_dirIndex.mp (List.mem_of_find?_eq_some hfind)
      have hfound := List.find?_some hfind
      rw [decide_eq_true_eq, Entry.payload,
        dirItemName_encodeDirItem typeInodeItem (h.ok e' he').name, Option.some.injEq] at hfound
      obtain rfl := h.eq_of_name he' he hdir hfound
      simp only [hfind] at hindex
      exact (delete_effect (run_wrapErr.mp hindex)).2.1
  have hrec₂ : s₂.records = s₁.records.erase e.itemKey.key := (tolerateDelete_effect hitem).2
  have hdistinct₁ : s₁.records.Distinct isDirKey := hrec₁ ▸ h.distinct.erase
  have hnames : s₂.names = Function.update (Function.update s.names e.indexKey none) e.itemKey none := by
    rw [names_erase hdistinct₁ (isDirKey_itemKey e) hrec₂,
      names_erase h.distinct (isDirKey_indexKey e) hrec₁]
  refine ⟨hrec₂ ▸ hdistinct₁.erase, ?_, ?_, fun x hx => h.ok x (Finset.mem_of_mem_erase hx), ?_, ?_⟩
  · rw [hnames]
    exact (h.index.cut fun x hx heq => h.indexOnce x hx e he heq).other
      (by simp [NameKey.isIndex, Entry.itemKey])
  · rw [hnames]
    exact (h.item.other (by simp [NameKey.isItem, Entry.indexKey])).cut
      fun x hx heq => h.itemOnce x hx e he heq
  · exact fun x hx y hy => h.indexOnce x (Finset.mem_of_mem_erase hx) y (Finset.mem_of_mem_erase hy)
  · exact fun x hx y hy => h.itemOnce x (Finset.mem_of_mem_erase hx) y (Finset.mem_of_mem_erase hy)

/-- A name goes from a directory, if it is there; no other name has its hash. -/
theorem leave {format itemErr : String} (h : Listed s E)
    (happart : ∀ x ∈ E, x.dir = dir → hashDirName x.name = hashDirName name → x.name = name)
    (hindex : removeDirIndex mapBackend format dir name s = .ok () s₁)
    (hitem : tolerateNotFound itemErr
      (mapBackend.cowDelete ⟨dir, typeDirItem, hashDirName name⟩) s₁ = .ok () s₂) :
    Listed s₂ (withoutName E dir name) := by
  by_cases hex : ∃ e ∈ E, e.dir = dir ∧ e.name = name
  · obtain ⟨e, he, rfl, rfl⟩ := hex
    rw [h.withoutName_of_mem he]
    exact h.leave_mem he hindex hitem
  · have hnone : ∀ x ∈ E, ¬ (x.dir = dir ∧ x.name = name) := fun x hx heq => hex ⟨x, hx, heq⟩
    have hsame : withoutName E dir name = E := Finset.filter_true_of_mem hnone
    have hfind : (s.records.keep (inPrefix dir typeDirIndex)).find? (fun x =>
        decide (dirItemName x.2 = some name)) = none := by
      refine List.find?_eq_none.mpr fun x hx => ?_
      obtain ⟨e, he, hdir, rfl⟩ := h.mem_dirIndex.mp hx
      rw [Entry.payload, dirItemName_encodeDirItem typeInodeItem (h.ok e he).name]
      simpa using fun hname => hnone e he ⟨hdir, hname⟩
    rw [removeDirIndex_eq] at hindex
    simp only [hfind] at hindex
    cases hindex
    have hrec := (tolerateDelete_effect hitem).2
    have habsent : s.names (.item dir (hashDirName name)) = none := by
      refine h.item.eq_none trivial fun x hx heq => ?_
      rw [Entry.itemKey, NameKey.item.injEq] at heq
      exact hnone x hx ⟨heq.1, happart x hx heq.1 heq.2⟩
    rw [hsame]
    exact h.of_records (hrec.trans (erase_of_find?_eq_none habsent))

/-- A name that is there is told apart by its hash. -/
theorem apart_of_mem (h : Listed s E) (he : e ∈ E) :
    ∀ x ∈ E, x.dir = e.dir → hashDirName x.name = hashDirName e.name → x.name = e.name := by
  intro x hx hdir hhash
  have hkey : x.itemKey = e.itemKey := by rw [Entry.itemKey, Entry.itemKey, hdir, hhash]
  rw [h.itemOnce x hx e he hkey]

theorem remove (h : Listed s E)
    (happart : ∀ x ∈ E, x.dir = dir → hashDirName x.name = hashDirName name → x.name = name)
    (hrun : removeInode mapBackend now ino dir name s = .ok () s') :
    Listed s' (withoutName E dir name) := by
  have hsize : Always (Confined Elsewhere) (adjustDirSize mapBackend dir (-dirEntrySizeDelta name)) :=
    respects_confined.adjustDirSize (Elsewhere.of (by decide))
  have htouch : Always (Confined Elsewhere) (touchDir mapBackend now dir) :=
    respects_confined.touchDir (Elsewhere.of (by decide))
  rcases removeInode_inv hrun with ⟨-, hunlink⟩ | ⟨-, hdrop⟩
  · obtain ⟨_, t₁, hindex, hrun₁⟩ := run_bind.mp hunlink
    obtain ⟨_, t₂, hitem, hrun₂⟩ := run_bind.mp hrun₁
    refine (h.leave happart hindex hitem).elsewhere (Always.of_ok ?_ hrun₂)
    refine Always.bind (always_step (respects_confined.removeInodeRef (Elsewhere.of (by decide)))) fun _ => ?_
    refine Always.bind (respects_confined.editInode (Elsewhere.of (by decide))) fun _ => ?_
    refine Always.bind (always_step hsize) fun _ => ?_
    exact Always.bind (always_step htouch) fun _ => confined_commit
  · obtain ⟨_, t₁, hfree, hrun₁⟩ := run_bind.mp hdrop
    obtain ⟨_, t₂, hclear, hrun₂⟩ := run_bind.mp hrun₁
    obtain ⟨_, t₃, hxattr, hrun₃⟩ := run_bind.mp hrun₂
    obtain ⟨_, t₄, href, hrun₄⟩ := run_bind.mp hrun₃
    obtain ⟨_, t₅, hinode, hrun₅⟩ := run_bind.mp hrun₄
    obtain ⟨_, t₆, hindex, hrun₆⟩ := run_bind.mp hrun₅
    obtain ⟨_, t₇, hitem, hrun₇⟩ := run_bind.mp hrun₆
    have h₁ := h.elsewhere ((Respects.freeInodeExtents confined_setVol ino).of_ok hfree)
    have h₂ := h₁.elsewhere ((confined_deletePrefix fun _ => Elsewhere.of (by decide)).of_ok
      (run_wrapErr.mp hclear))
    have h₃ := h₂.elsewhere ((always_tolerate (confined_deletePrefix fun _ =>
      Elsewhere.of (by decide))).of_ok hxattr)
    have h₄ := h₃.elsewhere ((always_tolerate (confined_delete (Elsewhere.of (by decide)))).of_ok href)
    have h₅ := h₄.elsewhere ((confined_delete (Elsewhere.of (by decide))).of_ok (run_wrapErr.mp hinode))
    refine (h₅.leave happart hindex hitem).elsewhere (Always.of_ok ?_ hrun₇)
    exact Always.bind (always_step hsize) fun _ => Always.bind (always_step htouch) fun _ => confined_commit

/-! ## 2. Calls -/

/-- The next index of a directory is above those of its entries. -/
theorem indexKey_ne (h : Listed s E) (dir ino ft : Nat) (name : Name) : ∀ x ∈ E, x.indexKey ≠
    (⟨dir, nextDirIndexOffset mapBackend s dir, name, ino, ft⟩ : Entry).indexKey := by
  intro x hx heq
  rw [Entry.indexKey, Entry.indexKey, NameKey.index.injEq] at heq
  have hlt : x.idx < nextDirIndexOffset mapBackend s x.dir :=
    lt_nextDirIndexOffset (h.mem_dirIndex.mpr ⟨x, hx, rfl, rfl⟩)
  rw [heq.1] at hlt
  exact absurd heq.2 hlt.ne

theorem nextIndex_le (h : Listed s E) (h' : Listed s' E') (hsub : E' ⊆ E) (dir : Nat) :
    nextDirIndexOffset mapBackend s' dir ≤ nextDirIndexOffset mapBackend s dir := by
  refine nextDirIndexOffset_le (three_le_nextIndex s dir) fun x hx => ?_
  obtain ⟨e, he, rfl, rfl⟩ := h'.mem_dirIndex.mp hx
  exact lt_nextDirIndexOffset (h.mem_dirIndex.mpr ⟨e, hsub he, rfl, rfl⟩)

/-- An entry with the next index of its directory is entered under a free hash. -/
theorem enterNext {indexErr itemErr : String} {args : List ErrArg} {ft : Nat} (h : Listed s E)
    (hsize : s.sb.nodeSize ≤ maxNodeSize) (hidx : nextDirIndexOffset mapBackend s dir < 2 ^ 64)
    (hino : ino < 2 ^ 64) (hft : ft < 256) (hname : Ordinary name)
    (hfree : ∀ x ∈ E, x.dir = dir → hashDirName x.name ≠ hashDirName name)
    (hrun : insertDirEntry mapBackend indexErr itemErr args dir (nextDirIndexOffset mapBackend s dir)
      name (encodeDirItem ino typeInodeItem ft name) s = .ok () s') : ∃ E', Listed s' E' := by
  have hnameOk : NameOk name := by
    obtain ⟨_, t, hins, -⟩ := run_bind.mp hrun
    exact nameOk_of_fitsLeaf hsize (insert_effect (run_wrapErr.mp hins)).2.2
  refine ⟨_, h.enter (e := ⟨dir, nextDirIndexOffset mapBackend s dir, name, ino, ft⟩)
    ⟨hidx, hino, hft, hnameOk, hname⟩ (h.indexKey_ne dir ino ft name) (fun x hx heq => ?_) hrun⟩
  rw [Entry.itemKey, Entry.itemKey, NameKey.item.injEq] at heq
  exact hfree x hx heq.1 heq.2

theorem createInode {data : Bytes} {mode ft : Nat} {opLabel : String} (h : Listed s E)
    (hsize : s.sb.nodeSize ≤ maxNodeSize) (hnum : nextInodeNum mapBackend s < 2 ^ 64)
    (hidx : nextDirIndexOffset mapBackend s dir < 2 ^ 64) (hft : ft < 256) (hname : Ordinary name)
    (hfree : ∀ x ∈ E, x.dir = dir → hashDirName x.name ≠ hashDirName name)
    (hrun : createInodeWithDirEntry mapBackend now dir name data mode ft opLabel s = .ok () s') :
    ∃ E', Listed s' E' := by
  have hrun₁ := run_get_bind.mp hrun
  obtain ⟨_, t₁, hinsert, hrun₂⟩ := run_bind.mp hrun₁
  obtain ⟨_, t₂, hwrite, hrun₃⟩ := run_bind.mp hrun₂
  have hrun₄ := run_get_bind.mp hrun₃
  obtain ⟨_, t₄, henter, hrun₅⟩ := run_bind.mp hrun₄
  have hconf₁ := (confined_insert (P := Elsewhere) (Elsewhere.of (by decide))).of_ok
    (run_wrapErr.mp hinsert)
  have hconf₂ := (Respects.writeExtents confined_setVol respects_confined fun _ => Elsewhere.of (by decide)).of_ok (run_wrapErr.mp hwrite)
  have hconf := trans_of (Confined Elsewhere) hconf₁ hconf₂
  have h₂ := h.elsewhere hconf
  obtain ⟨E', h'⟩ := h₂.enterNext (hconf.nodeSize ▸ hsize)
    (lt_of_le_of_lt (h.nextIndex_le h₂ subset_rfl dir) hidx) hnum hft hname hfree henter
  refine ⟨E', h'.elsewhere (Always.of_ok ?_ hrun₅)⟩
  refine Always.bind (always_step (confined_insert (Elsewhere.of (by decide)))) fun _ => ?_
  refine Always.bind (always_step (respects_confined.adjustDirSize (Elsewhere.of (by decide)))) fun _ => ?_
  exact Always.bind (always_step (respects_confined.touchDir (Elsewhere.of (by decide)))) fun _ => confined_commit

theorem createDir {perm : Nat} (h : Listed s E) (hsize : s.sb.nodeSize ≤ maxNodeSize)
    (hnum : nextInodeNum mapBackend s < 2 ^ 64)
    (hidx : nextDirIndexOffset mapBackend s dir < 2 ^ 64) (hname : Ordinary name)
    (hfree : ∀ x ∈ E, x.dir = dir → hashDirName x.name ≠ hashDirName name)
    (hrun : createDir mapBackend now dir name perm s = .ok () s') : ∃ E', Listed s' E' := by
  have hrun₁ := run_get_bind.mp hrun
  obtain ⟨_, t₁, hinsert, hrun₂⟩ := run_bind.mp hrun₁
  have hrun₃ := run_get_bind.mp hrun₂
  obtain ⟨_, t₃, henter, hrun₄⟩ := run_bind.mp hrun₃
  have hconf := (confined_insert (P := Elsewhere) (Elsewhere.of (by decide))).of_ok
    (run_wrapErr.mp hinsert)
  have h₁ := h.elsewhere hconf
  obtain ⟨E', h'⟩ := h₁.enterNext (hconf.nodeSize ▸ hsize)
    (lt_of_le_of_lt (h.nextIndex_le h₁ subset_rfl dir) hidx) hnum (by decide) hname hfree henter
  refine ⟨E', h'.elsewhere (Always.of_ok ?_ hrun₄)⟩
  refine Always.bind (always_step (confined_insert (Elsewhere.of (by decide)))) fun _ => ?_
  refine Always.bind (always_step (respects_confined.adjustDirSize (Elsewhere.of (by decide)))) fun _ => ?_
  exact Always.bind (always_step (respects_confined.touchDir (Elsewhere.of (by decide)))) fun _ => confined_commit

theorem addLink {src : InodeItem} (h : Listed s E) (hsize : s.sb.nodeSize ≤ maxNodeSize)
    (hnum : src.num < 2 ^ 64) (hidx : nextDirIndexOffset mapBackend s dir < 2 ^ 64)
    (hname : Ordinary name) (hfree : ∀ x ∈ E, x.dir = dir → hashDirName x.name ≠ hashDirName name)
    (hrun : addLink mapBackend now src dir name s = .ok () s') : ∃ E', Listed s' E' := by
  have hrun₁ := run_get_bind.mp hrun
  obtain ⟨_, t₁, henter, hrun₂⟩ := run_bind.mp hrun₁
  have hft : (if src.isSymlink then ftSymlink else ftRegFile) < 256 := by
    split_ifs <;> decide
  obtain ⟨E', h'⟩ := h.enterNext hsize hidx hnum hft hname hfree henter
  refine ⟨E', h'.elsewhere (Always.of_ok ?_ hrun₂)⟩
  refine Always.bind (always_step (respects_confined.appendInodeRef (Elsewhere.of (by decide)))) fun _ => ?_
  refine Always.bind (respects_confined.editInode (Elsewhere.of (by decide))) fun _ => ?_
  exact Always.bind (always_step (respects_confined.adjustDirSize (Elsewhere.of (by decide)))) fun _ => confined_commit

/-- An entry is moved; it may have been taken away before. -/
theorem move {newDir ft : Nat} {newName : Name} (h : Listed s E)
    (hsize : s.sb.nodeSize ≤ maxNodeSize) (hino : ino < 2 ^ 64) (hft : ft < 256)
    (happart : ∀ x ∈ E, x.dir = dir → hashDirName x.name = hashDirName name → x.name = name)
    (hidx : nextDirIndexOffset mapBackend s newDir < 2 ^ 64) (hname : Ordinary newName)
    (hfree : ∀ x ∈ withoutName E dir name, x.dir = newDir → hashDirName x.name ≠ hashDirName newName)
    (hrun : moveEntry mapBackend now ino ft dir newDir name newName s = .ok () s') :
    ∃ E', Listed s' E' := by
  obtain ⟨_, t₁, hindex, hrun₁⟩ := run_bind.mp hrun
  obtain ⟨_, t₂, hitem, hrun₂⟩ := run_bind.mp hrun₁
  obtain ⟨_, t₃, href, hrun₃⟩ := run_bind.mp hrun₂
  have hrun₄ := run_get_bind.mp hrun₃
  obtain ⟨_, t₅, henter, hrun₅⟩ := run_bind.mp hrun₄
  have hconf₁ : Confined (fun _ => True) s t₁ :=
    (respects_confined.removeDirIndex fun _ => trivial).of_ok hindex
  have hconf₂ : Confined (fun _ => True) t₁ t₂ :=
    (always_tolerate (confined_delete trivial)).of_ok hitem
  have hconf₃ := ((respects_confined (P := Elsewhere)).removeInodeRef (Elsewhere.of (by decide))).of_ok
    (run_wrapErr.mp href)
  have h₂ := h.leave happart hindex hitem
  have h₃ := h₂.elsewhere hconf₃
  have hsize₃ : t₃.sb.nodeSize ≤ maxNodeSize := by
    rw [hconf₃.nodeSize, hconf₂.nodeSize, hconf₁.nodeSize]
    exact hsize
  obtain ⟨E', h'⟩ := h₃.enterNext hsize₃
    (lt_of_le_of_lt (h.nextIndex_le h₃ (Finset.filter_subset _ _) newDir) hidx) hino hft hname hfree henter
  refine ⟨E', h'.elsewhere (Always.of_ok ?_ hrun₅)⟩
  refine Always.bind (always_step (respects_confined.appendInodeRef (Elsewhere.of (by decide)))) fun _ => ?_
  refine Always.bind (always_step (respects_confined.adjustDirSize (Elsewhere.of (by decide)))) fun _ => ?_
  refine Always.bind (always_step (respects_confined.adjustDirSize (Elsewhere.of (by decide)))) fun _ => ?_
  refine Always.bind (always_step (respects_confined.touchDir (Elsewhere.of (by decide)))) fun _ => ?_
  split_ifs
  · exact Always.bind (always_step (respects_confined.touchDir (Elsewhere.of (by decide)))) fun _ => confined_commit
  · exact confined_commit

end Listed

/-- An ordinary name is entered only where no other name of the directory has its hash. -/
def EntersApart : Call → MapFs → Prop
  | .writeFile p _ _, s | .makeDir p _, s | .symlink _ p, s | .link _ p, s =>
    Ordinary (splitPath p).2 ∧ HashApart s p p
  | .rename p q, s => Ordinary (splitPath q).2 ∧ HashApart s q p
  | .deleteDir _ _, _ => False
  | _, _ => True

/-- Indices and inode numbers fit in their fields. -/
def NumbersFit : Call → MapFs → Prop
  | .writeFile p _ _, s | .makeDir p _, s | .symlink _ p, s =>
    nextInodeNum mapBackend s < 2 ^ 64 ∧ IndexInRange s p
  | .link _ p, s | .rename _ p, s => IndexInRange s p
  | _, _ => True

theorem EntersApart.scripted {c : Call} (h : EntersApart c s) (script : List (List NodeEvent)) :
    EntersApart c (s.scripted script) := by
  cases c <;> simp only [EntersApart, HashApart, pathLookupIno_scripted, lookupDirEntry_scripted] at h ⊢ <;> exact h

theorem NumbersFit.scripted {c : Call} (h : NumbersFit c s) (script : List (List NodeEvent)) :
    NumbersFit c (s.scripted script) := by
  have hnum : nextInodeNum mapBackend (s.scripted script) = nextInodeNum mapBackend s := rfl
  have hidx : ∀ d, nextDirIndexOffset mapBackend (s.scripted script) d =
    nextDirIndexOffset mapBackend s d := fun _ => rfl
  cases c <;> simp only [NumbersFit, IndexInRange, pathLookupIno_scripted, hnum, hidx] at h ⊢ <;> exact h

/-- The number of an inode that a path finds fits in an entry. -/
theorem Listed.num_lt {q : Path} {i : InodeItem} (h : Listed s E)
    (hlook : pathLookup mapBackend s q = .ok i) : i.num < 2 ^ 64 := by
  obtain ⟨hwalk, -⟩ := pathLookup_inv hlook
  rcases List.eq_nil_or_concat q with rfl | ⟨q', x, rfl⟩
  · rw [walkPath, Except.ok.injEq] at hwalk
    rw [← hwalk]
    decide
  · rw [List.concat_eq_append] at hwalk
    obtain ⟨mid, ft, -, hentry⟩ := walkPath_concat_inv hwalk
    obtain ⟨e, he, -, -, heq, -⟩ := h.lookup_iff.mp hentry
    exact heq ▸ (h.ok e he).ino

/-- A rename first takes away what is in the way, and then moves the entry. -/
theorem Listed.rename {p q : Path} (h : Listed s E) (hsize : s.sb.nodeSize ≤ maxNodeSize)
    (hname : Ordinary (splitPath q).2) (happart : HashApart s q p) (hidx : IndexInRange s q)
    (hrun : renameEntry mapBackend now p q s = .ok () s') : ∃ E', Listed s' E' := by
  obtain ⟨oldDir, ino, ft, newDir, s₁, hold, hentry, hnew, hdst, hmove⟩ := renameEntry_inv rfl rfl hrun
  obtain ⟨e, he, rfl, hename, rfl, rfl⟩ := h.lookup_iff.mp hentry
  change e.name = (splitPath p).2 at hename
  have hclear : ∃ E₁ ⊆ E, Listed s₁ E₁ ∧ s₁.sb.nodeSize ≤ maxNodeSize ∧
      ∀ x ∈ E₁, x.dir = newDir → x.name ≠ (splitPath q).2 := by
    rcases hdst with ⟨dst, dstFt, hlook, -, hremove⟩ | ⟨err, habsent, rfl⟩
    · obtain ⟨x, hx, rfl, hxname, rfl, rfl⟩ := h.lookup_iff.mp hlook
      rw [← hxname] at hremove
      have hconf := (Respects.removeInode confined_setVol
        (respects_confined (P := fun _ => True)) fun _ _ => trivial).of_ok hremove
      refine ⟨_, Finset.filter_subset _ _, h.remove (h.apart_of_mem hx) hremove, hconf.nodeSize ▸ hsize, ?_⟩
      exact fun y hy hdir heq => (mem_withoutName.mp hy).2 ⟨hdir, heq.trans hxname.symm⟩
    · exact ⟨E, subset_rfl, h, hsize, h.lookup_none habsent⟩
  obtain ⟨E₁, hsub, h₁, hsize₁, hgone⟩ := hclear
  have hok := h.ok e he
  have hp : p ≠ [] := ne_nil_of_ordinary (hename ▸ hok.plain)
  change moveEntry mapBackend now e.ino e.ft e.dir newDir (splitPath p).2 _ s₁ = _ at hmove
  rw [← hename] at hmove
  refine h₁.move hsize₁ hok.ino hok.ft (fun x hx => h.apart_of_mem he x (hsub hx))
    (lt_of_le_of_lt (h.nextIndex_le h₁ hsub newDir) (hidx newDir hnew)) hname ?_ hmove
  intro x hx hdir
  obtain ⟨hx₁, hnot⟩ := mem_withoutName.mp hx
  refine happart newDir x.name (x.ino, x.ft) hnew
    (h.lookup_iff.mpr ⟨x, hsub hx₁, hdir, rfl, rfl, rfl⟩) fun hmem => ?_
  rcases List.mem_pair.mp hmem with heq | heq
  · have hlast := List.append_cancel_left
      (heq.trans (append_of_splitPath (ne_nil_of_ordinary hname) rfl))
    exact hgone x hx₁ hdir (List.singleton_inj.mp hlast)
  · -- the name of the source does not count
    obtain ⟨hdirs, hlast⟩ := List.append_inj' (heq.trans (append_of_splitPath hp rfl)) rfl
    have hsame : newDir = e.dir := Except.ok.inj
      ((hnew.symm.trans (congrArg (pathLookupIno mapBackend s) hdirs)).trans hold)
    exact hnot ⟨hdir.trans hsame, (List.singleton_inj.mp hlast).trans hename.symm⟩

theorem Listed.call {c : Call} (h : Listed s E) (hsize : s.sb.nodeSize ≤ maxNodeSize)
    (happart : EntersApart c s) (hfit : NumbersFit c s)
    (hrun : c.run mapBackend now s = .ok () s') : ∃ E', Listed s' E' := by
  have hmeta : ∀ {i f t}, Listed t E → updateInodeMetadata mapBackend now i f t = .ok () s' →
      ∃ E', Listed s' E' := fun ht hedit =>
    ⟨E, ht.elsewhere ((respects_confined.updateInodeMetadata (Elsewhere.of (by decide))).of_ok hedit)⟩
  cases c with
  | writeFile p data perm =>
    obtain ⟨dir, hlook, ⟨ino, ft, -, -, hover⟩ | ⟨err, habsent, hcreate⟩⟩ := writeFile_inv rfl hrun
    · exact ⟨E, h.elsewhere ((Respects.overwriteFile confined_setVol respects_confined
        fun _ => FileKey.elsewhere).of_ok hover)⟩
    · exact h.createInode hsize hfit.1 (hfit.2 dir hlook) (by decide) happart.1
        (h.free happart.1 happart.2 hlook habsent) hcreate
  | makeDir p perm =>
    obtain ⟨dir, err, hlook, habsent, hcreate⟩ := makeDir_inv rfl hrun
    exact h.createDir hsize hfit.1 (hfit.2 dir hlook) happart.1
      (h.free happart.1 happart.2 hlook habsent) hcreate
  | symlink target p =>
    obtain ⟨-, -, dir, err, hlook, habsent, hcreate⟩ := symlinkInode_inv rfl hrun
    exact h.createInode hsize hfit.1 (hfit.2 dir hlook) (by decide) happart.1
      (h.free happart.1 happart.2 hlook habsent) hcreate
  | link q p =>
    obtain ⟨src, dir, err, hsrc, -, -, hlook, habsent, hadd⟩ := linkInode_inv rfl hrun
    exact h.addLink hsize (h.num_lt hsrc) (hfit dir hlook) happart.1
      (h.free happart.1 happart.2 hlook habsent) hadd
  | rename p q => exact h.rename hsize happart.1 happart.2 hfit hrun
  | deleteFile p =>
    obtain ⟨dir, ino, ft, hlook, hentry, -, hremove⟩ := deleteFile_inv rfl hrun
    obtain ⟨e, he, rfl, hname, rfl, rfl⟩ := h.lookup_iff.mp hentry
    rw [← hname] at hremove
    exact ⟨_, h.remove (h.apart_of_mem he) hremove⟩
  | deleteDir depth p => exact absurd happart id
  | truncate p newSize =>
    obtain ⟨i, f, s₁, -, -, hcut, -, hedit⟩ := truncateInode_inv hrun
    rcases hcut with rfl | ⟨-, hcut⟩
    · exact hmeta h hedit
    · refine hmeta (h.elsewhere ((respects_confined.cutExtents fun _ => ?_).of_ok hcut)) hedit
      exact Elsewhere.of (by decide)
  | setXattr p name value =>
    obtain ⟨i, s₁, -, hset, hedit⟩ := setXattrInode_inv hrun
    rcases hset with hset | ⟨-, hset⟩
    · exact hmeta (h.elsewhere ((confined_update (Elsewhere.of (by decide))).of_ok hset)) hedit
    · exact hmeta (h.elsewhere ((confined_insert (Elsewhere.of (by decide))).of_ok hset)) hedit
  | removeXattr p name =>
    obtain ⟨i, s₁, -, hdel, hedit⟩ := removeXattrInode_inv hrun
    exact hmeta (h.elsewhere ((confined_delete (Elsewhere.of (by decide))).of_ok hdel)) hedit
  | chmod | chown | chtimes =>
    obtain ⟨i, -, hedit⟩ := setAttr_inv hrun
    exact hmeta h hedit

/-! ## 3. Runs -/

theorem Reachable.listed {s₀ : MapFs} (hfmt : Formatted s₀)
    (hreach : Reachable (fun c s => EntersApart c s ∧ NumbersFit c s) s₀ s) :
    s.sb.nodeSize ≤ maxNodeSize ∧ ∃ E, Listed s E := by
  induction hreach with
  | refl => exact ⟨hfmt.intact.space.geometry.nodeSize_le, _, hfmt.holds.listed⟩
  | @tail t t' _ hstep ih =>
    obtain ⟨c, now, script, ⟨happart, hfit⟩, hrun⟩ := hstep
    obtain ⟨hsize, E, h⟩ := ih
    have h' : Listed (t.scripted script) E := h.of_records rfl
    have hconf := confined_call hrun
    refine ⟨hconf.nodeSize ▸ hsize, h'.call hsize (happart.scripted script) (hfit.scripted script) hrun⟩

end Btrfs
