/-
  Btrfs/Nested.lean
  =================
  **Entries that lead out of the tree** — nested subvolumes.

  The location of an entry is a key.  For an inode of the same tree its type is
  INODE_ITEM; for a nested subvolume it is ROOT_ITEM, and the objectid is the number of a
  tree.  The driver reads the objectid and takes it for an inode number.  Trees are
  numbered from 256 on, like inodes, and 256 is the root directory: the first subvolume
  leads back to the root.
-/
import Btrfs.Prune
import Btrfs.Accounts

namespace Btrfs

open Lib

variable {s s' : MapFs} {now : Timespec} {script : List (List NodeEvent)} {p q : Path} {ino dir ft : Nat}
  {name : Name} {i : InodeItem}

/-! ## 1. Locations -/

/-- The entries packed in a payload, with the types of their locations. -/
def parseLocated : Nat → Bytes → List (DirEntry × Nat)
  | 0, _ => []
  | fuel + 1, d =>
    if d.length < dirItemHdrSize then []
    else
      let nameEnd := dirItemHdrSize + leAt 2 0x1B d
      if d.length < nameEnd then []
      else
        (⟨leAt 8 0 d, (d.drop dirItemHdrSize).take (leAt 2 0x1B d), leAt 1 0x1D d⟩, leAt 1 8 d) ::
          parseLocated fuel (d.drop (nameEnd + leAt 2 0x19 d))

theorem map_parseLocated (fuel : Nat) (d : Bytes) :
    (parseLocated fuel d).map Prod.fst = parseDirEntries fuel d := by
  induction fuel generalizing d with
  | zero => rfl
  | succ fuel ih =>
    simp only [parseLocated, parseDirEntries]
    split_ifs
    · rfl
    · rfl
    · rw [List.map_cons, ih]

/-- An entry of a directory, and the type of its location. -/
structure Link where
  dir : Nat
  entry : DirEntry
  typ : Nat
  deriving DecidableEq, Repr

/-- The entries in the items of a type. -/
def MapFs.links (s : MapFs) (itemType : Nat) : List Link :=
  (s.records.keep fun k => decide (k.typ = itemType)).flatMap fun x =>
    (parseLocated x.2.length x.2).map fun e => ⟨x.1.objID, e.1, e.2⟩

theorem mem_links {itemType : Nat} {x : Link} : x ∈ s.links itemType ↔
    ∃ y ∈ s.records.list, y.1.typ = itemType ∧ y.1.objID = x.dir ∧
      (x.entry, x.typ) ∈ parseLocated y.2.length y.2 := by
  rw [MapFs.links, List.mem_flatMap]
  constructor
  · rintro ⟨y, hy, hx⟩
    obtain ⟨hmem, htyp⟩ := List.mem_filter.mp hy
    obtain ⟨e, he, rfl⟩ := List.mem_map.mp hx
    exact ⟨y, hmem, of_decide_eq_true htyp, rfl, he⟩
  · rintro ⟨y, hmem, htyp, hobj, he⟩
    refine ⟨y, List.mem_filter.mpr ⟨hmem, decide_eq_true htyp⟩, List.mem_map.mpr ⟨_, he, ?_⟩⟩
    rw [hobj]

/-- An entry of an item has a location. -/
theorem exists_link {itemType : Nat} {y : Key × Bytes} {e : DirEntry} (hy : y ∈ s.records.list)
    (htyp : y.1.typ = itemType) (he : e ∈ parseDirEntries y.2.length y.2) :
    ∃ x ∈ s.links itemType, x.dir = y.1.objID ∧ x.entry = e := by
  rw [← map_parseLocated, List.mem_map] at he
  obtain ⟨⟨e', t⟩, he, rfl⟩ := he
  exact ⟨⟨y.1.objID, e', t⟩, mem_links.mpr ⟨y, hy, htyp, rfl, he⟩, rfl, rfl⟩

theorem entry_of_parseDirItems {d : Bytes} (h : parseDirItems d name = some (ino, ft)) :
    ⟨ino, name, ft⟩ ∈ parseDirEntries d.length d := by
  obtain ⟨e, hfind, heq⟩ := Option.map_eq_some_iff.mp h
  have hname : e.name = name := by simpa using List.find?_some hfind
  obtain ⟨rfl, rfl⟩ := Prod.mk.inj heq
  exact hname ▸ List.mem_of_find?_eq_some hfind

/-- What a lookup finds is an entry. -/
theorem link_of_lookup (h : lookupDirEntry mapBackend s dir name = .ok (ino, ft)) :
    ∃ x : Link, (x ∈ s.links typeDirItem ∨ x ∈ s.links typeDirIndex) ∧ x.dir = dir ∧
      x.entry = ⟨ino, name, ft⟩ := by
  rcases Option.or_eq_some_iff.mp (lookupDirEntry_ok_iff.mp h) with hhash | ⟨-, hindex⟩
  · rw [lookupHashed_eq] at hhash
    obtain ⟨d, hd, hparse⟩ := Option.bind_eq_some_iff.mp hhash
    obtain ⟨x, hx, hxdir, hentry⟩ := exists_link (Records.mem_of_find? hd) rfl
      (entry_of_parseDirItems hparse)
    exact ⟨x, Or.inl hx, hxdir, hentry⟩
  · rw [lookupIndexed_eq] at hindex
    obtain ⟨y, hy, hparse⟩ := List.exists_of_findSome?_eq_some hindex
    obtain ⟨hmem, hkey⟩ := List.mem_filter.mp hy
    obtain ⟨hobj, htyp⟩ := of_decide_eq_true hkey
    obtain ⟨x, hx, hxdir, hentry⟩ := exists_link hmem htyp (entry_of_parseDirItems hparse)
    exact ⟨x, Or.inr hx, hxdir.trans hobj, hentry⟩

/-- A name with an entry is found. -/
theorem lookup_of_link {x : Link} (hx : x ∈ s.links typeDirIndex) :
    ∃ r, lookupDirEntry mapBackend s x.dir x.entry.name = .ok r := by
  obtain ⟨y, hy, htyp, hobj, he⟩ := mem_links.mp hx
  have hparse : (parseDirItems y.2 x.entry.name).isSome := by
    rw [parseDirItems, Option.isSome_map, List.find?_isSome]
    refine ⟨x.entry, ?_, decide_eq_true rfl⟩
    rw [← map_parseLocated]
    exact List.mem_map_of_mem he
  have hindex : (lookupIndexed mapBackend s x.dir x.entry.name).isSome := by
    rw [lookupIndexed_eq, List.findSome?_isSome_iff]
    exact ⟨y, List.mem_filter.mpr ⟨hy, decide_eq_true ⟨hobj, htyp⟩⟩, hparse⟩
  obtain ⟨r, hr⟩ := Option.isSome_iff_exists.mp (Option.isSome_or.trans (Bool.or_eq_true_iff.mpr (Or.inr hindex)))
  exact ⟨r, lookupDirEntry_ok_iff.mpr hr⟩

/-! ## 2. Well-formed trees -/

/-- A tree as the kernel may have left it, with or without entries of nested subvolumes. -/
structure TreeInOrder (s : MapFs) : Prop where
  /-- A DIR_ITEM says what a DIR_INDEX item says. -/
  agree : ∀ x ∈ s.links typeDirItem, x ∈ s.links typeDirIndex
  /-- A name occurs once in a directory. -/
  once : ∀ x ∈ s.links typeDirIndex, ∀ y ∈ s.links typeDirIndex, x.dir = y.dir →
    x.entry.name = y.entry.name → x = y
  named : ∀ x ∈ s.links typeDirIndex, x.entry.name ≠ []
  /-- Entries stand in inodes of this tree, -/
  dirs : ∀ x ∈ s.links typeDirIndex, ∃ i, readInode mapBackend s x.dir = .ok i
  /-- which can be reached. -/
  reached : ∀ x ∈ s.links typeDirIndex, ∃ q, walkPath mapBackend s rootDirObjID q = .ok x.dir
  /-- A number with items that an entry leads to is that of an inode. -/
  owned : ∀ x ∈ s.links typeDirIndex, ∀ y ∈ s.records.list, y.1.objID = x.entry.inode →
    ∃ i, readInode mapBackend s x.entry.inode = .ok i
  /-- No inode of this tree holds the root directory. -/
  noRoot : ∀ x ∈ s.links typeDirIndex, x.typ = typeInodeItem → x.entry.inode ≠ rootDirObjID

namespace TreeInOrder

theorem lookup_iff (h : TreeInOrder s) : lookupDirEntry mapBackend s dir name = .ok (ino, ft) ↔
    ∃ x ∈ s.links typeDirIndex, x.dir = dir ∧ x.entry = ⟨ino, name, ft⟩ := by
  have hfound : ∀ {dir name ino ft}, lookupDirEntry mapBackend s dir name = .ok (ino, ft) →
      ∃ x ∈ s.links typeDirIndex, x.dir = dir ∧ x.entry = ⟨ino, name, ft⟩ := by
    intro dir name ino ft hlook
    obtain ⟨x, hx, hdir, hentry⟩ := link_of_lookup hlook
    exact ⟨x, hx.elim (h.agree x) id, hdir, hentry⟩
  refine ⟨hfound, ?_⟩
  rintro ⟨x, hx, rfl, hentry⟩
  obtain ⟨⟨ino', ft'⟩, hlook⟩ := lookup_of_link hx
  obtain ⟨y, hy, hdir, hentry'⟩ := hfound hlook
  obtain rfl := h.once x hx y hy hdir.symm (by rw [hentry'])
  rw [hentry, DirEntry.mk.injEq] at hentry'
  rw [hentry] at hlook
  rw [hlook, ← hentry'.1, ← hentry'.2.2]

end TreeInOrder

/-! ## 3. Deleting a directory -/

end Btrfs
