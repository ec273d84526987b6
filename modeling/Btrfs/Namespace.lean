/-
  Btrfs/Namespace.lean
  ====================
  **Directories and links, apart from how they are stored.**

  A namespace is a set of entries over some directories and other inodes.  In order, its
  entries lead from directories to inodes that exist, a name and an index occur once in a
  directory, and the directories form a tree.  The items of a filesystem stand for a
  namespace entry by entry: one DIR_INDEX, one DIR_ITEM and one back-reference for each,
  and counts of them in the inodes.
-/
import Btrfs.Names
import Btrfs.Lib.DirTree

namespace Btrfs

open Lib

/-! ## 1. Namespaces -/

/-- An ordinary name: not empty, and neither `.` nor `..`. -/
def Ordinary (name : Name) : Prop := name ≠ [] ∧ name ∉ dotNames

/-- One name of an inode: the directory it stands in, its index there, and what it leads to. -/
structure Entry where
  dir : Nat
  idx : Nat
  name : Name
  ino : Nat
  ft : Nat
  deriving DecidableEq

namespace Entry

/-- What the DIR_INDEX and the DIR_ITEM hold. -/
def payload (e : Entry) : Bytes := encodeDirItem e.ino typeInodeItem e.ft e.name

def backRef (e : Entry) : InodeRefEntry := ⟨e.idx, e.name⟩

def indexKey (e : Entry) : NameKey := .index e.dir e.idx

def itemKey (e : Entry) : NameKey := .item e.dir (hashDirName e.name)

/-- The fields fit their places in the items, and the name is an ordinary one. -/
structure Ok (e : Entry) : Prop where
  idx : e.idx < 2 ^ 64
  ino : e.ino < 2 ^ 64
  ft : e.ft < 256
  name : NameOk e.name
  plain : Ordinary e.name

theorem Ok.backRef {e : Entry} (h : e.Ok) : RefOk e.backRef := ⟨h.idx, h.name⟩

end Entry

structure Names where
  dirs : Finset Nat
  files : Finset Nat
  entries : Finset Entry

namespace Names

variable (N : Names)

/-- The number of names of an inode. -/
def links (ino : Nat) : Nat := (N.entries.filter fun e => e.ino = ino).card

/-- The size of a directory: each name counts twice. -/
def sizeOf (dir : Nat) : Nat := 2 * ∑ e ∈ N.entries.filter (fun e => e.dir = dir), e.name.length

/-- The entries that lead to directories. -/
def dirEntries : Set Entry := {e | e ∈ N.entries ∧ e.ft = ftDir}

structure WF (N : Names) : Prop where
  root : rootDirObjID ∈ N.dirs
  apart : Disjoint N.dirs N.files
  ok : ∀ e ∈ N.entries, e.Ok
  index : ∀ e ∈ N.entries, ∀ e' ∈ N.entries, e.indexKey = e'.indexKey → e = e'
  item : ∀ e ∈ N.entries, ∀ e' ∈ N.entries, e.itemKey = e'.itemKey → e = e'
  dir : ∀ e ∈ N.entries, e.dir ∈ N.dirs
  target : ∀ e ∈ N.entries, (e.ft = ftDir ∧ e.ino ∈ N.dirs) ∨ (e.ft ≠ ftDir ∧ e.ino ∈ N.files)
  oneParent : OneParent Entry.ino N.dirEntries
  noRoot : ∀ e ∈ N.entries, e.ino ≠ rootDirObjID
  ranked : ∃ rank, Ranked Entry.dir Entry.ino N.dirEntries rank

def add (e : Entry) : Names := { N with entries := insert e N.entries }

def cut (e : Entry) : Names := { N with entries := N.entries.erase e }

variable {N} {e : Entry}

/-- Names in a directory are told apart. -/
theorem WF.eq_of_name (h : N.WF) {e' : Entry} (he : e ∈ N.entries) (he' : e' ∈ N.entries)
    (hdir : e.dir = e'.dir) (hname : e.name = e'.name) : e = e' := by
  refine h.item e he e' he' ?_
  rw [Entry.itemKey, Entry.itemKey, hdir, hname]

theorem cut_add (he : e ∈ N.entries) : (N.cut e).add e = N := by
  rw [add, cut, Finset.insert_erase he]

theorem links_add (he : e ∉ N.entries) (ino : Nat) :
    (N.add e).links ino = N.links ino + if e.ino = ino then 1 else 0 := by
  rw [links, links, add, Finset.filter_insert]
  split_ifs with h
  · rw [Finset.card_insert_of_notMem fun hmem => he (Finset.mem_filter.mp hmem).1]
  · rfl

theorem sizeOf_add (he : e ∉ N.entries) (dir : Nat) :
    (N.add e).sizeOf dir = N.sizeOf dir + if e.dir = dir then 2 * e.name.length else 0 := by
  rw [sizeOf, sizeOf, add, Finset.filter_insert]
  split_ifs with h
  · rw [Finset.sum_insert fun hmem => he (Finset.mem_filter.mp hmem).1, Nat.mul_add, Nat.add_comm]
  · rfl

theorem not_mem_cut : e ∉ (N.cut e).entries := Finset.notMem_erase e N.entries

theorem links_cut (he : e ∈ N.entries) (ino : Nat) :
    N.links ino = (N.cut e).links ino + if e.ino = ino then 1 else 0 := by
  rw [← links_add not_mem_cut, cut_add he]

theorem sizeOf_cut (he : e ∈ N.entries) (dir : Nat) :
    N.sizeOf dir = (N.cut e).sizeOf dir + if e.dir = dir then 2 * e.name.length else 0 := by
  rw [← sizeOf_add not_mem_cut, cut_add he]

end Names

/-! ## 2. Items that stand for entries -/

def NameKey.isIndex : NameKey → Prop
  | .index .. => True
  | _ => False

def NameKey.isItem : NameKey → Prop
  | .item .. => True
  | _ => False

variable {v : NameKey → Option Bytes} {w : Nat → Option InodeItem} {N : Names}
  {E : Finset Entry} {e : Entry} {C : NameKey → Prop} {f : Entry → NameKey}

/-- At the keys of a class, the items are the payloads of the entries. -/
def ItemsStored (C : NameKey → Prop) (f : Entry → NameKey) (v : NameKey → Option Bytes)
    (E : Finset Entry) : Prop :=
  ∀ k d, C k → (v k = some d ↔ ∃ e ∈ E, f e = k ∧ e.payload = d)

namespace ItemsStored

theorem add (h : ItemsStored C f v E) (hfresh : ∀ e' ∈ E, f e' ≠ f e) :
    ItemsStored C f (Function.update v (f e) (some e.payload)) (insert e E) := by
  intro k d hk
  by_cases heq : k = f e
  · subst heq
    rw [Function.update_self, Option.some.injEq]
    constructor
    · exact fun hd => ⟨e, Finset.mem_insert_self _ _, rfl, hd⟩
    · rintro ⟨e', he', hkey, hd⟩
      rcases Finset.mem_insert.mp he' with rfl | he'
      · exact hd
      · exact absurd hkey (hfresh e' he')
  · rw [Function.update_of_ne heq, h k d hk]
    refine exists_congr fun e' => and_congr_left fun ⟨hkey, _⟩ => ?_
    rw [Finset.mem_insert]
    refine ⟨Or.inr, fun hor => hor.resolve_left ?_⟩
    rintro rfl
    exact heq hkey.symm

theorem cut (h : ItemsStored C f v E) (hinj : ∀ e' ∈ E, f e' = f e → e' = e) :
    ItemsStored C f (Function.update v (f e) none) (E.erase e) := by
  intro k d hk
  by_cases heq : k = f e
  · subst heq
    rw [Function.update_self]
    refine ⟨nofun, ?_⟩
    rintro ⟨e', he', hkey, -⟩
    obtain ⟨hne, hmem⟩ := Finset.mem_erase.mp he'
    exact absurd (hinj e' hmem hkey) hne
  · rw [Function.update_of_ne heq, h k d hk]
    refine exists_congr fun e' => and_congr_left fun ⟨hkey, _⟩ => ?_
    rw [Finset.mem_erase]
    refine ⟨fun hmem => ⟨?_, hmem⟩, fun hmem => hmem.2⟩
    rintro rfl
    exact heq hkey.symm

theorem other {k : NameKey} {x : Option Bytes} (h : ItemsStored C f v E) (hk : ¬ C k) :
    ItemsStored C f (Function.update v k x) E := by
  intro k' d hk'
  have hne : k' ≠ k := fun heq => hk (heq ▸ hk')
  rw [Function.update_of_ne hne]
  exact h k' d hk'

theorem eq_none (h : ItemsStored C f v E) {k : NameKey} (hk : C k) (hnone : ∀ e ∈ E, f e ≠ k) :
    v k = none := by
  cases hv : v k with
  | none => rfl
  | some d =>
    obtain ⟨e, he, hkey, -⟩ := (h k d hk).mp hv
    exact absurd hkey (hnone e he)

theorem eq_some (h : ItemsStored C f v E) (he : e ∈ E) (hk : C (f e)) : v (f e) = some e.payload :=
  (h _ _ hk).mpr ⟨e, he, rfl, rfl⟩

end ItemsStored

/-- The item, if there is one, lists the back-references of a set. -/
def RefsOf (o : Option Bytes) (S : Set InodeRefEntry) : Prop :=
  ∃ l : List InodeRefEntry, (∀ x, x ∈ l ↔ x ∈ S) ∧
    o = if l = [] then none else some (encodeInodeRefEntries l)

/-- The back-references from an inode to a directory. -/
def backRefs (E : Finset Entry) (ino dir : Nat) : Set InodeRefEntry :=
  {x | ∃ e ∈ E, e.dir = dir ∧ e.ino = ino ∧ e.backRef = x}

/-- The INODE_REF items list the entries, but for the root directory. -/
def RefsStored (v : NameKey → Option Bytes) (E : Finset Entry) : Prop :=
  ∀ ino dir, ino ≠ rootDirObjID → RefsOf (v (.ref ino dir)) (backRefs E ino dir)

/-- The decoded INODE_ITEM of an inode. -/
def InodeAs (N : Names) (ino : Nat) : Option InodeItem → Prop
  | none => ino ∉ N.dirs ∧ ino ∉ N.files
  | some i =>
    (ino ∈ N.dirs ∧ i.isDir = true ∧ i.nlink = 1 ∧ i.size = N.sizeOf ino) ∨
      (ino ∈ N.files ∧ i.isDir = false ∧ i.nlink = N.links ino)

/-- DIR_INDEX items, DIR_ITEMs and INODE_REFs stand for some entries. -/
structure ItemsRep (v : NameKey → Option Bytes) (E : Finset Entry) : Prop where
  index : ItemsStored NameKey.isIndex Entry.indexKey v E
  item : ItemsStored NameKey.isItem Entry.itemKey v E
  refs : RefsStored v E

namespace RefsStored

theorem changed {E' : Finset Entry} {ino dir : Nat} {x : Option Bytes} (h : RefsStored v E)
    (hx : RefsOf x (backRefs E' ino dir))
    (hother : ∀ ino' dir', (ino', dir') ≠ (ino, dir) → backRefs E' ino' dir' = backRefs E ino' dir') :
    RefsStored (Function.update v (.ref ino dir) x) E' := by
  intro ino' dir' hroot
  by_cases heq : (ino', dir') = (ino, dir)
  · obtain ⟨rfl, rfl⟩ := Prod.mk.inj heq
    rw [Function.update_self]
    exact hx
  · have hne : NameKey.ref ino' dir' ≠ NameKey.ref ino dir := by
      intro hkey
      rw [NameKey.ref.injEq] at hkey
      exact heq (Prod.ext hkey.1 hkey.2)
    rw [Function.update_of_ne hne, hother ino' dir' heq]
    exact h ino' dir' hroot

theorem other {k : NameKey} {x : Option Bytes} (h : RefsStored v E)
    (hk : ∀ ino dir, NameKey.ref ino dir ≠ k) : RefsStored (Function.update v k x) E := by
  intro ino dir hroot
  rw [Function.update_of_ne (hk ino dir)]
  exact h ino dir hroot

end RefsStored

theorem backRefs_insert_self :
    backRefs (insert e E) e.ino e.dir = insert e.backRef (backRefs E e.ino e.dir) := by
  ext x
  simp only [backRefs, Set.mem_ofPred_eq, Finset.mem_insert, Set.mem_insert_iff]
  constructor
  · rintro ⟨e', rfl | he', hdir, hino, hx⟩
    · exact Or.inl hx.symm
    · exact Or.inr ⟨e', he', hdir, hino, hx⟩
  · rintro (hx | ⟨e', he', hdir, hino, hx⟩)
    · exact ⟨e, Or.inl rfl, rfl, rfl, hx.symm⟩
    · exact ⟨e', Or.inr he', hdir, hino, hx⟩

theorem backRefs_insert_of_ne {ino dir : Nat} (hne : (ino, dir) ≠ (e.ino, e.dir)) :
    backRefs (insert e E) ino dir = backRefs E ino dir := by
  ext x
  simp only [backRefs, Set.mem_ofPred_eq, Finset.mem_insert]
  refine exists_congr fun e' => and_congr_left fun ⟨hdir, hino, _⟩ => ?_
  refine ⟨fun hor => hor.resolve_left ?_, Or.inr⟩
  rintro rfl
  exact hne (Prod.ext hino.symm hdir.symm)

theorem backRefs_erase_of_ne {ino dir : Nat} (hne : (ino, dir) ≠ (e.ino, e.dir)) :
    backRefs (E.erase e) ino dir = backRefs E ino dir := by
  ext x
  simp only [backRefs, Set.mem_ofPred_eq, Finset.mem_erase]
  refine exists_congr fun e' => and_congr_left fun ⟨hdir, hino, _⟩ => ?_
  refine ⟨And.right, fun hmem => ⟨?_, hmem⟩⟩
  rintro rfl
  exact hne (Prod.ext hino.symm hdir.symm)

/-- Names tell the back-references of a directory apart. -/
theorem backRefs_erase_self (hname : ∀ e' ∈ E, e'.dir = e.dir → e'.name = e.name → e' = e) :
    backRefs (E.erase e) e.ino e.dir = {x ∈ backRefs E e.ino e.dir | x.name ≠ e.name} := by
  ext x
  simp only [backRefs, Set.mem_ofPred_eq, Finset.mem_erase]
  constructor
  · rintro ⟨e', ⟨hne, he'⟩, hdir, hino, rfl⟩
    exact ⟨⟨e', he', hdir, hino, rfl⟩, fun heq => hne (hname e' he' hdir heq)⟩
  · rintro ⟨⟨e', he', hdir, hino, rfl⟩, hne⟩
    refine ⟨e', ⟨?_, he'⟩, hdir, hino, rfl⟩
    rintro rfl
    exact hne rfl

namespace ItemsRep

variable {x : Option Bytes}

theorem enter (h : ItemsRep v E) (hindex : ∀ e' ∈ E, e'.indexKey ≠ e.indexKey)
    (hitem : ∀ e' ∈ E, e'.itemKey ≠ e.itemKey)
    (hx : RefsOf x (insert e.backRef (backRefs E e.ino e.dir))) :
    ItemsRep (Function.update (Function.update (Function.update v e.indexKey (some e.payload))
      e.itemKey (some e.payload)) (.ref e.ino e.dir) x) (insert e E) := by
  refine ⟨?_, ?_, ?_⟩
  · exact ((h.index.add hindex).other (by simp [NameKey.isIndex, Entry.itemKey])).other
      (by simp [NameKey.isIndex])
  · exact ((h.item.other (by simp [NameKey.isItem, Entry.indexKey])).add hitem).other
      (by simp [NameKey.isItem])
  · have hrefs := (h.refs.other (k := e.indexKey) (x := some e.payload) (by simp [Entry.indexKey])).other
      (k := e.itemKey) (x := some e.payload) (by simp [Entry.itemKey])
    exact hrefs.changed (backRefs_insert_self ▸ hx) fun _ _ hne => backRefs_insert_of_ne hne

theorem leave (h : ItemsRep v E) (hindex : ∀ e' ∈ E, e'.indexKey = e.indexKey → e' = e)
    (hitem : ∀ e' ∈ E, e'.itemKey = e.itemKey → e' = e)
    (hx : RefsOf x (backRefs (E.erase e) e.ino e.dir)) :
    ItemsRep (Function.update (Function.update (Function.update v e.indexKey none) e.itemKey none)
      (.ref e.ino e.dir) x) (E.erase e) := by
  refine ⟨?_, ?_, ?_⟩
  · exact ((h.index.cut hindex).other (by simp [NameKey.isIndex, Entry.itemKey])).other
      (by simp [NameKey.isIndex])
  · exact ((h.item.other (by simp [NameKey.isItem, Entry.indexKey])).cut hitem).other
      (by simp [NameKey.isItem])
  · have hrefs := (h.refs.other (k := e.indexKey) (x := none) (by simp [Entry.indexKey])).other
      (k := e.itemKey) (x := none) (by simp [Entry.itemKey])
    exact hrefs.changed hx fun _ _ hne => backRefs_erase_of_ne hne

end ItemsRep

/-! ## 3. Steps on back-references and indices -/

section steps

variable {s s' : MapFs} {ino dir : Nat} {name : Name} {S : Set InodeRefEntry}

theorem search_of_some {k : Key} {d : Bytes} (h : s.records.find? k = some d) :
    mapBackend.searchTree s k = .ok d := by
  change mapSearch s k = .ok d
  rw [mapSearch, h]

theorem search_of_none {k : Key} (h : s.records.find? k = none) :
    ∃ e, mapBackend.searchTree s k = .error e := by
  change ∃ e, mapSearch s k = .error e
  rw [mapSearch, h]
  exact ⟨_, rfl⟩

theorem appendInodeRef_shows {idx : Nat} (h : Shows s v w) (hrefs : RefsOf (v (.ref ino dir)) S)
    (hok : ∀ x ∈ S, RefOk x) (hnew : ∀ x ∈ S, x.name ≠ name)
    (hrun : appendInodeRef mapBackend ino dir idx name s = .ok () s') :
    ∃ x, RefsOf x (insert ⟨idx, name⟩ S) ∧ Shows s' (Function.update v (.ref ino dir) x) w := by
  obtain ⟨l, hl, hv⟩ := hrefs
  have hfind : s.records.find? ⟨ino, typeInodeRef, dir⟩ = v (.ref ino dir) :=
    h.find?_key (.ref ino dir)
  rw [hv] at hfind
  simp only [appendInodeRef] at hrun
  by_cases hnil : l = []
  · rw [if_pos hnil] at hfind
    obtain ⟨e, he⟩ := search_of_none hfind
    simp only [he] at hrun
    refine ⟨_, ⟨[⟨idx, name⟩], ?_, ?_⟩, h.insert (k := .ref ino dir) ?_ (run_wrapErr.mp hrun)⟩
    · intro x
      rw [List.mem_singleton, Set.mem_insert_iff, ← hl, hnil]
      simp
    · simp [encodeInodeRefEntries]
    · rw [hv, if_pos hnil]
  · rw [if_neg hnil] at hfind
    have hparse : parseInodeRefEntries (encodeInodeRefEntries l) = l :=
      parseInodeRefEntries_encode fun x hx => hok x ((hl x).mp hx)
    have hany : (l.any fun x => decide (x.name = name)) = false := by
      rw [List.any_eq_false]
      intro x hx
      simpa using hnew x ((hl x).mp hx)
    simp only [search_of_some hfind, hparse, hany, Bool.false_eq_true, if_false] at hrun
    refine ⟨_, ⟨l ++ [⟨idx, name⟩], ?_, ?_⟩, h.update (k := .ref ino dir) (run_wrapErr.mp hrun)⟩
    · intro x
      rw [List.mem_append, List.mem_singleton, Set.mem_insert_iff, hl, or_comm]
    · rw [if_neg (by simp)]

theorem removeInodeRef_shows (h : Shows s v w) (hrefs : RefsOf (v (.ref ino dir)) S)
    (hok : ∀ x ∈ S, RefOk x)
    (hrun : removeInodeRef mapBackend ino dir name s = .ok () s') :
    ∃ x, RefsOf x {y ∈ S | y.name ≠ name} ∧
      Shows s' (Function.update v (.ref ino dir) x) w := by
  obtain ⟨l, hl, hv⟩ := hrefs
  have hfind : s.records.find? ⟨ino, typeInodeRef, dir⟩ = v (.ref ino dir) :=
    h.find?_key (.ref ino dir)
  rw [hv] at hfind
  simp only [removeInodeRef] at hrun
  have hkept : ∀ x, x ∈ l.filter (fun e => decide (e.name ≠ name)) ↔ x ∈ {y ∈ S | y.name ≠ name} := by
    intro x
    rw [List.mem_filter, decide_eq_true_eq, hl]
    rfl
  by_cases hnil : l = []
  · rw [if_pos hnil] at hfind
    obtain ⟨e, he⟩ := search_of_none hfind
    simp only [he] at hrun
    cases hrun
    refine ⟨v (.ref ino dir), ⟨_, hkept, ?_⟩, by rw [Function.update_eq_self]; exact h⟩
    simp [hv, hnil]
  · rw [if_neg hnil] at hfind
    have hparse : parseInodeRefEntries (encodeInodeRefEntries l) = l :=
      parseInodeRefEntries_encode fun x hx => hok x ((hl x).mp hx)
    simp only [search_of_some hfind, hparse] at hrun
    by_cases hempty : (l.filter fun e => decide (e.name ≠ name)) = []
    · rw [if_pos (List.isEmpty_iff.mpr hempty)] at hrun
      refine ⟨none, ⟨_, hkept, ?_⟩, h.erase (k := .ref ino dir) (delete_effect (run_wrapErr.mp hrun)).2.1⟩
      rw [if_pos hempty]
    · rw [if_neg (by simpa using hempty)] at hrun
      refine ⟨_, ⟨_, hkept, ?_⟩, h.update (k := .ref ino dir) (run_wrapErr.mp hrun)⟩
      rw [if_neg hempty]

/-- The items of a class whose keys meet a condition are those of entries. -/
theorem mem_keep_stored {p q : Key → Bool} {Q : NameKey → Prop} (hdistinct : s.records.Distinct p)
    (hp : ∀ k : NameKey, C k → p k.key = true) (hstored : ItemsStored C f s.names E)
    (hC : ∀ e, C (f e)) (hq : ∀ k, q k = true ↔ ∃ k' : NameKey, C k' ∧ Q k' ∧ k = k'.key)
    {x : Key × Bytes} :
    x ∈ s.records.keep q ↔ ∃ e ∈ E, Q (f e) ∧ x = ((f e).key, e.payload) := by
  obtain ⟨k, d⟩ := x
  have hmem : ∀ k : NameKey, C k → ((k.key, d) ∈ s.records.list ↔ s.names k = some d) :=
    fun k hk => (Records.find?_eq_some_iff hdistinct (hp k hk)).symm
  rw [Records.keep, List.mem_filter, hq]
  constructor
  · rintro ⟨hlist, k', hk', hQ, hkey⟩
    obtain rfl : k = k'.key := hkey
    rw [hmem k' hk', hstored k' d hk'] at hlist
    obtain ⟨e, he, rfl, rfl⟩ := hlist
    exact ⟨e, he, hQ, rfl⟩
  · rintro ⟨e, he, hQ, hx⟩
    obtain ⟨rfl, rfl⟩ := Prod.mk.inj hx
    exact ⟨(hmem _ (hC e)).mpr (hstored.eq_some he (hC e)), f e, hC e, hQ, rfl⟩

/-- The DIR_INDEX items of a directory are those of its entries. -/
theorem mem_keep_dirIndex {p : Key → Bool} (hdistinct : s.records.Distinct p)
    (hp : ∀ k : NameKey, k.isIndex → p k.key = true)
    (hindex : ItemsStored NameKey.isIndex Entry.indexKey s.names E) {x : Key × Bytes} :
    x ∈ s.records.keep (inPrefix dir typeDirIndex) ↔
      ∃ e ∈ E, e.dir = dir ∧ x = (e.indexKey.key, e.payload) := by
  refine mem_keep_stored (Q := fun k => k.key.objID = dir) hdistinct hp hindex (fun _ => trivial)
    fun k => ?_
  rw [inPrefix, decide_eq_true_eq]
  constructor
  · rintro ⟨hobj, htyp⟩
    refine ⟨.index dir k.offset, trivial, rfl, ?_⟩
    rw [NameKey.key, ← hobj, ← htyp]
  · rintro ⟨k', hk', hobj, rfl⟩
    cases k' with
    | index => exact ⟨hobj, rfl⟩
    | item => exact absurd hk' id
    | ref => exact absurd hk' id

theorem Shows.mem_stored {q : Key → Bool} {Q : NameKey → Prop} (h : Shows s v w)
    (hstored : ItemsStored C f v E) (hC : ∀ e, C (f e))
    (hq : ∀ k, q k = true ↔ ∃ k' : NameKey, C k' ∧ Q k' ∧ k = k'.key) {x : Key × Bytes} :
    x ∈ s.records.keep q ↔ ∃ e ∈ E, Q (f e) ∧ x = ((f e).key, e.payload) := by
  obtain ⟨hok, rfl, rfl⟩ := h
  exact mem_keep_stored hok.distinct (fun k _ => isNameKey_key k) hstored hC hq

theorem Shows.mem_dirIndex (h : Shows s v w)
    (hindex : ItemsStored NameKey.isIndex Entry.indexKey v E) {x : Key × Bytes} :
    x ∈ s.records.keep (inPrefix dir typeDirIndex) ↔
      ∃ e ∈ E, e.dir = dir ∧ x = (e.indexKey.key, e.payload) := by
  obtain ⟨hok, rfl, rfl⟩ := h
  exact mem_keep_dirIndex hok.distinct (fun k _ => isNameKey_key k) hindex

theorem removeDirIndex_eq (s : MapFs) (format : String) (dir : Nat) (name : Name) :
    removeDirIndex mapBackend format dir name s =
      match (s.records.keep (inPrefix dir typeDirIndex)).find? fun x =>
          decide (dirItemName x.2 = some name) with
      | some x => step format [] (mapBackend.cowDelete x.1) s
      | none => .ok () s := by
  simp only [removeDirIndex, mapBackend, mapCollect]
  cases s.records.keep (inPrefix dir typeDirIndex) <;> rfl

theorem removeDirIndex_shows {format : String} (h : Shows s v w)
    (hindex : ItemsStored NameKey.isIndex Entry.indexKey v E) (hok : ∀ e ∈ E, e.Ok) (he : e ∈ E)
    (hname : ∀ e' ∈ E, e'.dir = e.dir → e'.name = e.name → e' = e)
    (hrun : removeDirIndex mapBackend format e.dir e.name s = .ok () s') :
    Shows s' (Function.update v e.indexKey none) w := by
  rw [removeDirIndex_eq] at hrun
  have hmem : (e.indexKey.key, e.payload) ∈ s.records.keep (inPrefix e.dir typeDirIndex) :=
    (h.mem_dirIndex hindex).mpr ⟨e, he, rfl, rfl⟩
  cases hfind : (s.records.keep (inPrefix e.dir typeDirIndex)).find? fun x =>
      decide (dirItemName x.2 = some e.name) with
  | none =>
    have habsent := List.find?_eq_none.mp hfind _ hmem
    rw [Entry.payload, dirItemName_encodeDirItem typeInodeItem (hok e he).name] at habsent
    simp at habsent
  | some x =>
    obtain ⟨e', he', hdir', rfl⟩ := (h.mem_dirIndex hindex).mp (List.mem_of_find?_eq_some hfind)
    have hfound := List.find?_some hfind
    rw [decide_eq_true_eq, Entry.payload,
      dirItemName_encodeDirItem typeInodeItem (hok e' he').name, Option.some.injEq] at hfound
    obtain rfl := hname e' he' hdir' hfound
    simp only [hfind] at hrun
    exact h.erase (delete_effect (run_wrapErr.mp hrun)).2.1

theorem Shows.readInode_iff {ino : Nat} {i : InodeItem} (h : Shows s v w) :
    readInode mapBackend s ino = .ok i ↔ w ino = some i := by
  rw [← h.inodes, MapFs.inodes, MapFs.inodeAt]
  cases hd : s.records.find? ⟨ino, typeInodeItem, 0⟩ with
  | none =>
    obtain ⟨e, he⟩ := search_of_none hd
    simp [readInode, he]
  | some d =>
    have hwhole : ¬ d.length < inodeItemSize := not_lt.mpr (h.ok.whole ino d hd)
    simp [readInode, search_of_some hd, hwhole]

end steps

/-! ## 4. Entries that can be looked up and listed -/

def dirTypes : List Nat := [typeDirItem, typeDirIndex]

def isDirKey (k : Key) : Bool := decide (k.typ ∈ dirTypes)

/-- Every entry has its DIR_INDEX and its DIR_ITEM, and there are no others. -/
structure Listed (s : MapFs) (E : Finset Entry) : Prop where
  distinct : s.records.Distinct isDirKey
  index : ItemsStored NameKey.isIndex Entry.indexKey s.names E
  item : ItemsStored NameKey.isItem Entry.itemKey s.names E
  ok : ∀ e ∈ E, e.Ok
  indexOnce : ∀ e ∈ E, ∀ e' ∈ E, e.indexKey = e'.indexKey → e = e'
  itemOnce : ∀ e ∈ E, ∀ e' ∈ E, e.itemKey = e'.itemKey → e = e'

namespace Listed

variable {s : MapFs} {ino dir ft : Nat} {name : Name}

theorem mem_dirIndex (h : Listed s E) {x : Key × Bytes} :
    x ∈ s.records.keep (inPrefix dir typeDirIndex) ↔
      ∃ e ∈ E, e.dir = dir ∧ x = (e.indexKey.key, e.payload) := by
  refine mem_keep_dirIndex h.distinct (fun k hk => ?_) h.index
  cases k with
  | index => rfl
  | item => exact absurd hk id
  | ref => exact absurd hk id

/-- Names in a directory are told apart. -/
theorem eq_of_name (h : Listed s E) {e' : Entry} (he : e ∈ E) (he' : e' ∈ E)
    (hdir : e.dir = e'.dir) (hname : e.name = e'.name) : e = e' := by
  refine h.itemOnce e he e' he' ?_
  rw [Entry.itemKey, Entry.itemKey, hdir, hname]

/-- Lookups find the entries. -/
theorem lookup_iff (h : Listed s E) : lookupDirEntry mapBackend s dir name = .ok (ino, ft) ↔
    ∃ e ∈ E, e.dir = dir ∧ e.name = name ∧ e.ino = ino ∧ e.ft = ft := by
  have hparse : ∀ e ∈ E, parseDirItems e.payload name =
      if e.name = name then some (e.ino, e.ft) else none := fun e he =>
    parseDirItems_encodeDirItem typeInodeItem (h.ok e he).ino (h.ok e he).ft (h.ok e he).name name
  rw [lookupDirEntry_ok_iff]
  constructor
  · intro hfound
    rcases Option.or_eq_some_iff.mp hfound with hhash | ⟨-, hindex⟩
    · rw [lookupHashed_eq] at hhash
      obtain ⟨d, hd, hfound⟩ := Option.bind_eq_some_iff.mp hhash
      obtain ⟨e, he, hkey, rfl⟩ := (h.item (.item dir (hashDirName name)) d trivial).mp hd
      rw [hparse e he] at hfound
      split_ifs at hfound with hname
      rw [Option.some.injEq, Prod.mk.injEq] at hfound
      rw [Entry.itemKey, NameKey.item.injEq] at hkey
      exact ⟨e, he, hkey.1, hname, hfound⟩
    · rw [lookupIndexed_eq] at hindex
      obtain ⟨x, hx, hfound⟩ := List.exists_of_findSome?_eq_some hindex
      obtain ⟨e, he, hdir, rfl⟩ := h.mem_dirIndex.mp hx
      rw [hparse e he] at hfound
      split_ifs at hfound with hname
      rw [Option.some.injEq, Prod.mk.injEq] at hfound
      exact ⟨e, he, hdir, hname, hfound⟩
  · rintro ⟨e, he, rfl, rfl, rfl, rfl⟩
    have hfind : s.records.find? ⟨e.dir, typeDirItem, hashDirName e.name⟩ = some e.payload :=
      h.item.eq_some he trivial
    rw [lookupHashed_eq, hfind, Option.bind_some, hparse e he, if_pos rfl]
    rfl

theorem lookup_none (h : Listed s E) {err : Err}
    (hlook : lookupDirEntry mapBackend s dir name = .error err) :
    ∀ e ∈ E, e.dir = dir → e.name ≠ name := by
  intro e he hdir hname
  have hok := h.lookup_iff.mpr ⟨e, he, hdir, hname, rfl, rfl⟩
  rw [hlook] at hok
  cases hok

end Listed

/-! ## 5. Filesystems that hold a namespace -/

/-- The items of the filesystem stand for a namespace in order. -/
structure Holds (s : MapFs) (N : Names) : Prop where
  ok : NamesOk s
  items : ItemsRep s.names N.entries
  inodes : ∀ ino, InodeAs N ino (s.inodes ino)
  wf : N.WF

namespace Holds

variable {s : MapFs} {ino dir ft : Nat} {name : Name}

theorem shows (h : Holds s N) : Shows s s.names s.inodes := ⟨h.ok, rfl, rfl⟩

theorem of_shows (h : Shows s v w) (hitems : ItemsRep v N.entries)
    (hinodes : ∀ ino, InodeAs N ino (w ino)) (hwf : N.WF) : Holds s N := by
  obtain ⟨hok, rfl, rfl⟩ := h
  exact ⟨hok, hitems, hinodes, hwf⟩

theorem listed (h : Holds s N) : Listed s N.entries := by
  refine ⟨h.ok.distinct.mono fun k hk => ?_, h.items.index, h.items.item, h.wf.ok, h.wf.index, h.wf.item⟩
  simp only [isDirKey, isNameKey, dirTypes, nameTypes, List.mem_cons, decide_eq_true_eq] at hk ⊢
  tauto

/-- Lookups find the entries. -/
theorem lookup_iff (h : Holds s N) : lookupDirEntry mapBackend s dir name = .ok (ino, ft) ↔
    ∃ e ∈ N.entries, e.dir = dir ∧ e.name = name ∧ e.ino = ino ∧ e.ft = ft := h.listed.lookup_iff

theorem lookup_none (h : Holds s N) {err : Err}
    (hlook : lookupDirEntry mapBackend s dir name = .error err) :
    ∀ e ∈ N.entries, e.dir = dir → e.name ≠ name := h.listed.lookup_none hlook

/-- Inodes are read as the namespace has them. -/
theorem readInode_iff (h : Holds s N) {i : InodeItem} :
    readInode mapBackend s ino = .ok i ↔ s.inodes ino = some i := h.shows.readInode_iff

theorem inode_of_file (h : Holds s N) (hfile : ino ∈ N.files) :
    ∃ i, s.inodes ino = some i ∧ i.isDir = false ∧ i.nlink = N.links ino := by
  have has := h.inodes ino
  cases hi : s.inodes ino with
  | none =>
    rw [hi] at has
    exact absurd hfile has.2
  | some i =>
    rw [hi] at has
    rcases has with ⟨hdir, -⟩ | ⟨-, hkind, hlinks⟩
    · exact absurd hfile (Finset.disjoint_left.mp h.wf.apart hdir)
    · exact ⟨i, rfl, hkind, hlinks⟩

theorem inode_of_dir (h : Holds s N) (hdir : ino ∈ N.dirs) :
    ∃ i, s.inodes ino = some i ∧ i.isDir = true ∧ i.nlink = 1 ∧ i.size = N.sizeOf ino := by
  have has := h.inodes ino
  cases hi : s.inodes ino with
  | none =>
    rw [hi] at has
    exact absurd hdir has.1
  | some i =>
    rw [hi] at has
    rcases has with ⟨-, hrest⟩ | ⟨hfile, -⟩
    · exact ⟨i, rfl, hrest⟩
    · exact absurd hfile (Finset.disjoint_left.mp h.wf.apart hdir)

end Holds

end Btrfs
