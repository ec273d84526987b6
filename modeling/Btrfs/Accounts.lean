/-
  Btrfs/Accounts.lean
  ===================
  **The books of the namespace** — entries, back-references, link counts and sizes.

  Calls whose parents are directories, whose names are ordinary and of different hashes,
  and which move nothing below itself, keep the items of the namespace in step with each
  other.  One thing they do not look at is the width of the fields: a link count that has
  reached its largest value goes on to zero.
-/
import Btrfs.NameCalls
import Btrfs.Progress

namespace Btrfs

open Lib

variable {s s' : MapFs} {N : Names} {now : Timespec} {script : List (List NodeEvent)}

/-! ## 1. What the calls ask for -/

/-- The parent path names a directory. -/
def ParentIsDir (s : MapFs) (p : Path) : Prop :=
  ∃ i, pathLookup mapBackend s (splitPath p).1 = .ok i ∧ i.isDir = true

/-- No other name of the directory has the hash of the last name of `p`; the name that `q` gives up
    does not count. -/
def HashApart (s : MapFs) (p q : Path) : Prop :=
  ∀ parentIno x r, pathLookupIno mapBackend s (splitPath p).1 = .ok parentIno →
    lookupDirEntry mapBackend s parentIno x = .ok r → (splitPath p).1 ++ [x] ∉ [p, q] →
    hashDirName x ≠ hashDirName (splitPath p).2

/-- Calls on ordinary names in directories. -/
def InDomain : Call → MapFs → Prop
  | .writeFile p _ _, s | .makeDir p _, s | .symlink _ p, s | .link _ p, s =>
    ParentIsDir s p ∧ Ordinary (splitPath p).2 ∧ HashApart s p p
  | .rename p q, s =>
    ParentIsDir s p ∧ ParentIsDir s q ∧ Ordinary (splitPath p).2 ∧ Ordinary (splitPath q).2 ∧
      HashApart s q p ∧ ¬ p <+: q
  | .deleteFile p, s | .deleteDir _ p, s => ParentIsDir s p ∧ Ordinary (splitPath p).2
  | _, _ => True

/-- The next index of the directory fits in a key. -/
def IndexInRange (s : MapFs) (p : Path) : Prop :=
  ∀ parentIno, pathLookupIno mapBackend s (splitPath p).1 = .ok parentIno →
    nextDirIndexOffset mapBackend s parentIno < 2 ^ 64

/-- The numbers the call hands out, and the link count it raises, fit in their fields. -/
def InRange : Call → MapFs → Prop
  | .writeFile p _ _, s | .makeDir p _, s | .symlink _ p, s =>
    nextInodeNum mapBackend s < 2 ^ 64 ∧ IndexInRange s p
  | .link q p, s =>
    IndexInRange s p ∧ ∀ i, pathLookup mapBackend s q = .ok i → i.nlink + 1 < 2 ^ 32
  | .rename _ q, s => IndexInRange s q
  | _, _ => True

theorem isDir_of_isRegular {i : InodeItem} (h : i.isRegular = true) : i.isDir = false := by
  simp only [InodeItem.isRegular, InodeItem.isDir, decide_eq_true_eq, decide_eq_false_iff_not] at h ⊢
  rw [h]
  decide

/-- The hash of a new name is free. -/
theorem Listed.free {E : Finset Entry} {p : Path} {parentIno : Nat} {err : Err} (h : Listed s E)
    (hname : Ordinary (splitPath p).2) (happart : HashApart s p p)
    (hlook : pathLookupIno mapBackend s (splitPath p).1 = .ok parentIno)
    (habsent : lookupDirEntry mapBackend s parentIno (splitPath p).2 = .error err) :
    ∀ x ∈ E, x.dir = parentIno → hashDirName x.name ≠ hashDirName (splitPath p).2 := by
  intro x hx hdir
  refine happart parentIno x.name (x.ino, x.ft) hlook
    (h.lookup_iff.mpr ⟨x, hx, hdir, rfl, rfl, rfl⟩) fun hmem => ?_
  have hne : p ≠ [] := by
    rintro rfl
    exact hname.1 rfl
  have heq : (splitPath p).1 ++ [x.name] = p := by simpa using hmem
  have hlast : [x.name] = [(splitPath p).2] :=
    List.append_cancel_left (heq.trans (append_of_splitPath hne rfl))
  exact h.lookup_none habsent x hx hdir (List.singleton_inj.mp hlast)

namespace Holds

theorem scripted (h : Holds s N) (script : List (List NodeEvent)) : Holds (s.scripted script) N :=
  ⟨⟨h.ok.distinct, h.ok.whole⟩, h.items, h.inodes, h.wf⟩

/-- An inode that reads as a directory is one. -/
theorem mem_dirs (h : Holds s N) {ino : Nat} {i : InodeItem}
    (hread : readInode mapBackend s ino = .ok i) (hdir : i.isDir = true) : ino ∈ N.dirs := by
  have has := h.inodes ino
  rw [h.readInode_iff.mp hread] at has
  rcases has with ⟨hmem, -⟩ | ⟨-, hnot, -⟩
  · exact hmem
  · rw [hdir] at hnot
    cases hnot

theorem mem_files (h : Holds s N) {ino : Nat} {i : InodeItem}
    (hread : readInode mapBackend s ino = .ok i) (hdir : i.isDir = false) :
    ino ∈ N.files ∧ i.nlink = N.links ino := by
  have has := h.inodes ino
  rw [h.readInode_iff.mp hread] at has
  rcases has with ⟨-, hnot, -⟩ | ⟨hmem, -, hcount⟩
  · rw [hdir] at hnot
    cases hnot
  · exact ⟨hmem, hcount⟩

theorem parent_mem_dirs (h : Holds s N) {p : Path} {parentIno : Nat} (hparent : ParentIsDir s p)
    (hlook : pathLookupIno mapBackend s (splitPath p).1 = .ok parentIno) : parentIno ∈ N.dirs := by
  obtain ⟨i, hi, hdir⟩ := hparent
  rw [pathLookupIno, hi] at hlook
  cases hlook
  exact h.mem_dirs (pathLookup_inv hi).2 hdir

/-- A walk that ends in a directory goes along directories. -/
theorem way (h : Holds s N) {p : Path} {x : Nat}
    (hwalk : walkPath mapBackend s rootDirObjID p = .ok x) (hx : x ∈ N.dirs) :
    Way Entry.dir Entry.ino Entry.name N.dirEntries rootDirObjID p x := by
  induction p using List.reverseRecOn generalizing x with
  | nil =>
    rw [walkPath] at hwalk
    cases hwalk
    exact Way.nil
  | append_singleton p name ih =>
    obtain ⟨mid, ft, hwalk', hlook⟩ := walkPath_concat_inv hwalk
    obtain ⟨e, he, rfl, rfl, rfl, -⟩ := h.lookup_iff.mp hlook
    refine Way.snoc (ih hwalk' (h.wf.dir e he)) ⟨he, ?_⟩
    rcases h.wf.target e he with ⟨hkind, -⟩ | ⟨-, hfile⟩
    · exact hkind
    · exact absurd hfile (Finset.disjoint_left.mp h.wf.apart hx)

theorem unique_way (h : Holds s N) {p q : Path} {x : Nat}
    (hp : Way Entry.dir Entry.ino Entry.name N.dirEntries rootDirObjID p x)
    (hq : Way Entry.dir Entry.ino Entry.name N.dirEntries rootDirObjID q x) : p = q :=
  hp.unique h.wf.oneParent (fun e he => h.wf.noRoot e he.1) hq

/-- An edit with a commit. -/
theorem metadata (h : Holds s N) {ino : Nat} {mutator : MapFs → Bytes → Bytes}
    {g : InodeItem → InodeItem} (hf : EditsTo ino mutator g)
    (hg : ∀ i, (g i).isDir = i.isDir ∧ (g i).nlink = i.nlink ∧ (ino ∈ N.dirs → (g i).size = i.size))
    (hrun : updateInodeMetadata mapBackend now ino mutator s = .ok () s') : Holds s' N := by
  obtain ⟨_, t₁, hedit, hcommit⟩ := run_bind.mp hrun
  exact (h.edit (hf.stamped now fun s => (mapBackend.sb s).generation + 1) hg hedit).commit hcommit

theorem metadata_id (h : Holds s N) {ino : Nat}  {mutator : MapFs → Bytes → Bytes}
    (hf : EditsTo ino mutator id)
    (hrun : updateInodeMetadata mapBackend now ino mutator s = .ok () s') : Holds s' N :=
  h.metadata hf (fun _ => ⟨rfl, rfl, fun _ => rfl⟩) hrun

/-- A step that concerns none of the items of the namespace. -/
theorem calm (h : Holds s N) (hcalm : Calm nameTypes s s') : Holds s' N :=
  h.of_shows_same (h.shows.kept hcalm.kept)

end Holds

/-! ## 2. Calls -/

namespace Names.Named

variable {e e' : Entry}

theorem add (h : N.Named) : (N.add e).Named := by
  intro n hn hroot
  obtain ⟨x, hx, hino⟩ := h n hn hroot
  exact ⟨x, Finset.mem_insert_of_mem hx, hino⟩

theorem create (h : N.Named) : (N.create e).Named := by
  intro n hn hroot
  by_cases hne : n = e.ino
  · exact ⟨e, Finset.mem_insert_self _ _, hne.symm⟩
  · rw [mem_create_dirs hne, mem_create_files hne] at hn
    exact h.add n hn hroot

theorem move (h : N.Named) (hino : e'.ino = e.ino) : (N.move e e').Named := by
  intro n hn hroot
  obtain ⟨x, hx, rfl⟩ := h n hn hroot
  by_cases hxe : x = e
  · exact ⟨e', Finset.mem_insert_self _ _, hxe ▸ hino⟩
  · exact ⟨x, Finset.mem_insert_of_mem (Finset.mem_erase.mpr ⟨hxe, hx⟩), rfl⟩

end Names.Named

theorem Holds.notDangling (h : Holds s N) (c : Call) : NotDangling c s := by
  cases c with
  | writeFile p data perm =>
    intro parentIno ino ft _ hlook
    obtain ⟨e, he, -, -, rfl, -⟩ := h.lookup_iff.mp hlook
    have hsome : s.inodes e.ino ≠ none := by
      rcases h.wf.target e he with ⟨-, hdir⟩ | ⟨-, hfile⟩
      · obtain ⟨i, hi, -⟩ := h.inode_of_dir hdir
        rw [hi]
        exact Option.some_ne_none i
      · obtain ⟨i, hi, -⟩ := h.inode_of_file hfile
        rw [hi]
        exact Option.some_ne_none i
    rw [MapFs.inodes, Ne, Option.map_eq_none_iff] at hsome
    exact Option.isSome_iff_ne_none.mpr hsome
  | _ => trivial

theorem Holds.mem_files_of_entry (h : Holds s N) {e : Entry} (he : e ∈ N.entries)
    (hkind : e.ft ≠ ftDir) : e.ino ∈ N.files := by
  rcases h.wf.target e he with ⟨hcontra, -⟩ | ⟨-, hfile⟩
  · exact absurd hcontra hkind
  · exact hfile

/-- The entry has the directory and the name of the path. -/
def Entry.At (x : Entry) (s : MapFs) (p : Path) : Prop :=
  x.name = (splitPath p).2 ∧ pathLookupIno mapBackend s (splitPath p).1 = .ok x.dir

section calls

variable {p q : Path}

/-- What becomes of a namespace in which at most the name of a path is entered. -/
structure Entered (s : MapFs) (p : Path) (N N' : Names) : Prop where
  named : N.Named → N'.Named
  kept : N.entries ⊆ N'.entries
  new : ∀ x ∈ N'.entries, x ∈ N.entries ∨ x.At s p

theorem Entered.refl : Entered s p N N := ⟨id, subset_rfl, fun _ => Or.inl⟩

theorem Entered.create {e : Entry} (he : e.At s p) : Entered s p N (N.create e) := by
  refine ⟨Names.Named.create, Finset.subset_insert _ _, fun x hx => ?_⟩
  rcases Finset.mem_insert.mp hx with rfl | hx
  · exact Or.inr he
  · exact Or.inl hx

theorem Holds.writeFile {data : Bytes} {perm : Nat} (h : Holds s N) (hs' : Intact s')
    (hdom : InDomain (.writeFile p data perm) s) (hrange : InRange (.writeFile p data perm) s)
    (hrun : writeFile mapBackend now p data perm s = .ok () s') :
    ∃ N', Holds s' N' ∧ Entered s p N N' := by
  obtain ⟨hparent, hname, happart⟩ := hdom
  obtain ⟨hnum, hidx⟩ := hrange
  obtain ⟨parentIno, hlook, hcase⟩ := writeFile_inv rfl hrun
  rcases hcase with ⟨ino, ft, hentry, hkind, hover⟩ | ⟨err, habsent, hcreate⟩
  · obtain ⟨e, he, -, -, rfl, rfl⟩ := h.lookup_iff.mp hentry
    exact ⟨N, h.overwrite (h.mem_files_of_entry he hkind) hover, Entered.refl⟩
  · have hfree := h.listed.free hname happart hlook habsent
    obtain ⟨idx, h'⟩ := h.createInode hs' (h.parent_mem_dirs hparent hlook) hfree hname
      (hidx parentIno hlook) hnum (by decide) (by decide) (fileMode_lt perm)
      (by rw [isRegular_fileMode]; decide) hcreate
    exact ⟨_, h', Entered.create ⟨rfl, hlook⟩⟩

theorem Holds.makeDir {perm : Nat} (h : Holds s N) (hs' : Intact s')
    (hdom : InDomain (.makeDir p perm) s) (hrange : InRange (.makeDir p perm) s)
    (hrun : makeDir mapBackend now p perm s = .ok () s') :
    ∃ N', Holds s' N' ∧ Entered s p N N' := by
  obtain ⟨hparent, hname, happart⟩ := hdom
  obtain ⟨hnum, hidx⟩ := hrange
  obtain ⟨parentIno, err, hlook, habsent, hcreate⟩ := makeDir_inv rfl hrun
  have hfree := h.listed.free hname happart hlook habsent
  obtain ⟨idx, h'⟩ := h.createDir hs' (h.parent_mem_dirs hparent hlook) hfree hname
    (hidx parentIno hlook) hnum hcreate
  exact ⟨_, h', Entered.create ⟨rfl, hlook⟩⟩

theorem Holds.symlink {target : Bytes} (h : Holds s N) (hs' : Intact s')
    (hdom : InDomain (.symlink target p) s) (hrange : InRange (.symlink target p) s)
    (hrun : symlinkInode mapBackend now target p s = .ok () s') :
    ∃ N', Holds s' N' ∧ Entered s p N N' := by
  obtain ⟨hparent, hname, happart⟩ := hdom
  obtain ⟨hnum, hidx⟩ := hrange
  obtain ⟨-, -, parentIno, err, hlook, habsent, hcreate⟩ := symlinkInode_inv rfl hrun
  have hfree := h.listed.free hname happart hlook habsent
  obtain ⟨idx, h'⟩ := h.createInode hs' (h.parent_mem_dirs hparent hlook) hfree hname
    (hidx parentIno hlook) hnum (by decide) (by decide) (by decide) (by decide) hcreate
  exact ⟨_, h', Entered.create ⟨rfl, hlook⟩⟩

theorem Holds.link (h : Holds s N) (hs' : Intact s') (hdom : InDomain (.link q p) s)
    (hrange : InRange (.link q p) s) (hrun : linkInode mapBackend now q p s = .ok () s') :
    ∃ e i, Holds s' (N.add e) ∧ e.name = (splitPath p).2 ∧
      pathLookupIno mapBackend s (splitPath p).1 = .ok e.dir ∧
      pathLookup mapBackend s q = .ok i ∧ e.ino = i.num := by
  obtain ⟨hparent, hname, happart⟩ := hdom
  obtain ⟨hidx, hlinks⟩ := hrange
  obtain ⟨src, parentIno, err, hsrc, hnotdir, -, hlook, habsent, hadd⟩ := linkInode_inv rfl hrun
  have hfree := h.listed.free hname happart hlook habsent
  obtain ⟨hwalk, hread⟩ := pathLookup_inv hsrc
  obtain ⟨hfile, hcount⟩ := h.mem_files hread hnotdir
  -- the source is not the root directory, and so it has a number that fits in an entry
  have hnum : src.num < 2 ^ 64 := by
    rcases List.eq_nil_or_concat q with rfl | ⟨q', x, rfl⟩
    · rw [walkPath, Except.ok.injEq] at hwalk
      exact absurd (hwalk ▸ hfile) (Finset.disjoint_left.mp h.wf.apart h.wf.root)
    · rw [List.concat_eq_append] at hwalk
      obtain ⟨mid, ft, -, hentry⟩ := walkPath_concat_inv hwalk
      obtain ⟨e, he, -, -, heq, -⟩ := h.lookup_iff.mp hentry
      exact heq ▸ (h.wf.ok e he).ino
  exact ⟨_, src, h.addLink hs' hfile (h.parent_mem_dirs hparent hlook) hfree hname
    (hidx parentIno hlook) hnum (hcount ▸ hlinks src hsrc) hadd, rfl, hlook, hsrc, rfl⟩

theorem Holds.deleteFile (h : Holds s N) (hrun : deleteFile mapBackend now p s = .ok () s') :
    ∃ e ∈ N.entries, Holds s' (N.remove e) ∧ e.ft ≠ ftDir ∧ e.name = (splitPath p).2 ∧
      pathLookupIno mapBackend s (splitPath p).1 = .ok e.dir := by
  obtain ⟨parentIno, ino, ft, hlook, hentry, hkind, hremove⟩ := deleteFile_inv rfl hrun
  obtain ⟨e, he, rfl, hname, rfl, rfl⟩ := h.lookup_iff.mp hentry
  rw [← hname] at hremove
  exact ⟨e, he, h.remove he (h.wf.empty_of_file he hkind) hremove, hkind, hname, hlook⟩

/-- The entry of the path goes, after everything below it. -/
theorem Holds.deleteDir {depth : Nat} (h : Holds s N)
    (hrun : deleteDir mapBackend now depth p s = .ok () s') :
    ∃ e ∈ N.dirEntries, e.name = (splitPath p).2 ∧
      pathLookupIno mapBackend s (splitPath p).1 = .ok e.dir ∧
      ∃ l N', Removals now s N (e :: l) s' N' ∧
        ∀ x, x ∈ l ↔ x ∈ N.entries ∧ Below Entry.dir Entry.ino N.dirEntries e.ino x.dir := by
  obtain ⟨parentIno, ino, hlook, hentry, hrest⟩ := deleteDir_inv rfl hrun
  obtain ⟨e, he, rfl, hname, rfl, hkind⟩ := h.lookup_iff.mp hentry
  obtain ⟨_, t₁, hpurge, hrest₁⟩ := run_bind.mp hrest
  obtain ⟨_, t₂, hclear, hremove⟩ := run_bind.mp hrest₁
  obtain ⟨l, N₁, hrem, hempty, hbelow⟩ := h.purge hpurge
  have hrec := (hrem.holds h).clearIndex hempty (run_wrapErr.mp hclear)
  obtain ⟨rank, hrank⟩ := h.wf.ranked
  have he₁ : e ∈ N₁.entries := by
    refine (hrem.mem_entries e).mpr ⟨he, fun hel => ?_⟩
    exact absurd (hrank.le_of_below (hbelow e hel)) (not_le.mpr (hrank e ⟨he, hkind⟩))
  rw [← hname] at hremove
  refine ⟨e, ⟨he, hkind⟩, hname, hlook, l, _, (hrem.same hrec).remove he₁ hempty hremove, fun x => ?_⟩
  exact ⟨fun hx => ⟨hrem.mem x hx, hbelow x hx⟩, fun hx => hrem.mem_of_below hempty hx.1 hx.2⟩

theorem ne_nil_of_ordinary (h : Ordinary (splitPath p).2) : p ≠ [] := by
  rintro rfl
  exact h.1 rfl

/-- The way to a directory and a name in it are the path of the entry. -/
theorem Holds.path_unique {e : Entry} (h : Holds s N) (hp : Ordinary (splitPath p).2)
    (hq : Ordinary (splitPath q).2) (he : e ∈ N.entries)
    (hlook : pathLookupIno mapBackend s (splitPath p).1 = .ok e.dir)
    (hlook' : pathLookupIno mapBackend s (splitPath q).1 = .ok e.dir)
    (hname : (splitPath p).2 = (splitPath q).2) : p = q := by
  have hdir := h.wf.dir e he
  have hway := h.unique_way (h.way (pathLookupIno_inv hlook).1 hdir)
    (h.way (pathLookupIno_inv hlook').1 hdir)
  rw [append_of_splitPath (ne_nil_of_ordinary hp) rfl, append_of_splitPath (ne_nil_of_ordinary hq) rfl]
  exact congrArg₂ (fun d x => d ++ [x]) hway hname

/-- How a `Rename` goes: the entry in its way, if any, is removed, and the entry `e` becomes `e'`. -/
structure RenameSteps (now : Timespec) (p q : Path) (s s₁ s' : MapFs) (N N₁ : Names) (e e' : Entry) :
    Prop where
  mem : e ∈ N.entries
  name : e.name = (splitPath p).2
  dir : pathLookupIno mapBackend s (splitPath p).1 = .ok e.dir
  newName : e'.name = (splitPath q).2
  newDir : pathLookupIno mapBackend s (splitPath q).1 = .ok e'.dir
  isDir : e'.dir ∈ N.dirs
  ino : e'.ino = e.ino
  ft : e'.ft = e.ft
  cleared : (∃ x ∈ N.entries, x ≠ e ∧ x.dir = e'.dir ∧ x.name = e'.name ∧ x.ft ≠ ftDir ∧
      removeInode mapBackend now x.ino x.dir x.name s = .ok () s₁ ∧ N₁ = N.remove x) ∨
    s₁ = s ∧ N₁ = N ∧ ∀ x ∈ N.entries, x.dir = e'.dir → x.name ≠ e'.name
  held₁ : Holds s₁ N₁
  sub : N₁.entries ⊆ N.entries
  mem₁ : e ∈ N₁.entries
  moved : moveEntry mapBackend now e.ino e.ft e.dir e'.dir e.name e'.name s₁ = .ok () s'
  held : Holds s' (N₁.move e e')

/-- An entry that is in the way is removed first, and it is not the one to be moved. -/
theorem Holds.clearTarget {s₁ : MapFs} {e : Entry} {newParent : Nat} {name : Name} (h : Holds s N)
    (he : e ∈ N.entries) (hnewdir : newParent ∈ N.dirs) (hne : e.dir = newParent → e.name ≠ name)
    (hdst : (∃ dst dstFt, lookupDirEntry mapBackend s newParent name = .ok (dst, dstFt) ∧
        dstFt ≠ ftDir ∧ removeInode mapBackend now dst newParent name s = .ok () s₁) ∨
      ∃ err, lookupDirEntry mapBackend s newParent name = .error err ∧ s₁ = s) :
    ∃ N₁, Holds s₁ N₁ ∧ N₁.entries ⊆ N.entries ∧ e ∈ N₁.entries ∧ newParent ∈ N₁.dirs ∧
      (∀ x ∈ N₁.entries, x.dir = newParent → x.name ≠ name) ∧
      ((∃ x ∈ N.entries, x ≠ e ∧ x.dir = newParent ∧ x.name = name ∧ x.ft ≠ ftDir ∧
          removeInode mapBackend now x.ino x.dir x.name s = .ok () s₁ ∧ N₁ = N.remove x) ∨
        s₁ = s ∧ N₁ = N ∧ ∀ x ∈ N.entries, x.dir = newParent → x.name ≠ name) := by
  rcases hdst with ⟨dst, dstFt, hlook, hkind, hremove⟩ | ⟨err, habsent, rfl⟩
  · obtain ⟨x, hx, rfl, rfl, rfl, rfl⟩ := h.lookup_iff.mp hlook
    have hxe : e ≠ x := by
      rintro rfl
      exact hne rfl rfl
    refine ⟨_, h.remove hx (h.wf.empty_of_file hx hkind) hremove, ?_, ?_, ?_, ?_,
      Or.inl ⟨x, hx, hxe.symm, rfl, rfl, hkind, hremove, rfl⟩⟩
    · rw [Names.entries_remove]
      exact Finset.erase_subset _ _
    · rw [Names.entries_remove]
      exact Finset.mem_erase.mpr ⟨hxe, he⟩
    · rw [h.wf.dirs_remove hx]
      exact Finset.mem_erase.mpr ⟨h.wf.dir_ne_ino hx, hnewdir⟩
    · rw [Names.entries_remove]
      intro y hy hdir hyname
      obtain ⟨hne, hyN⟩ := Finset.mem_erase.mp hy
      exact hne (h.wf.eq_of_name hyN hx hdir hyname)
  · have hnone := h.lookup_none habsent
    exact ⟨N, h, subset_rfl, he, hnewdir, hnone, Or.inr ⟨rfl, rfl, hnone⟩⟩

theorem Holds.renameSteps (h : Holds s N) (hs' : Intact s') (hdom : InDomain (.rename p q) s)
    (hrange : InRange (.rename p q) s) (hrun : renameEntry mapBackend now p q s = .ok () s') :
    ∃ s₁ N₁ e e', RenameSteps now p q s s₁ s' N N₁ e e' := by
  obtain ⟨hparent, hparent', hp, hq, happart, hprefix⟩ := hdom
  obtain ⟨oldParent, ino, ft, newParent, s₁, hold, hentry, hnew, hdst, hmove⟩ :=
    renameEntry_inv rfl rfl hrun
  change pathLookupIno mapBackend s (splitPath q).1 = .ok newParent at hnew
  obtain ⟨e, he, rfl, hname, rfl, rfl⟩ := h.lookup_iff.mp hentry
  have hnewdir := h.parent_mem_dirs hparent' hnew
  have hne : e.dir = newParent → e.name ≠ (splitPath q).2 := by
    rintro rfl hsame
    rw [h.path_unique hp hq he hold hnew (hname.symm.trans hsame)] at hprefix
    exact hprefix List.prefix_rfl
  obtain ⟨N₁, h₁, hsub, he₁, hnewdir₁, hgone, hcleared⟩ := h.clearTarget he hnewdir hne hdst
  have hfree : (N₁.cut e).Free newParent (splitPath q).2 := by
    intro x hx hdir
    obtain ⟨hxe, hx₁⟩ := Finset.mem_erase.mp hx
    refine happart newParent x.name (x.ino, x.ft) hnew
      (h.lookup_iff.mpr ⟨x, hsub hx₁, hdir, rfl, rfl, rfl⟩) ?_
    intro hmem
    rcases List.mem_pair.mp hmem with heq | heq
    · have hlast := List.append_cancel_left (heq.trans (append_of_splitPath (ne_nil_of_ordinary hq) rfl))
      exact hgone x hx₁ hdir (List.singleton_inj.mp hlast)
    · obtain ⟨hdirs, hlast⟩ := List.append_inj'
        (heq.trans (append_of_splitPath (ne_nil_of_ordinary hp) rfl)) rfl
      have hsame : newParent = e.dir := Except.ok.inj
        ((hnew.symm.trans (congrArg (pathLookupIno mapBackend s) hdirs)).trans hold)
      refine hxe (h.wf.eq_of_name (hsub hx₁) he (hdir.trans hsame) ?_)
      exact (List.singleton_inj.mp hlast).trans hname.symm
  have hidx : nextDirIndexOffset mapBackend s₁ newParent < 2 ^ 64 := by
    refine lt_of_le_of_lt (nextIndex_le h₁.shows h₁.items.index (three_le_nextIndex s newParent) ?_)
      (hrange newParent hnew)
    rintro x hx rfl
    exact lt_nextIndex h.shows h.items.index (hsub hx)
  have hbelow : e.ft = ftDir → ¬ Below Entry.dir Entry.ino N₁.dirEntries e.ino newParent := by
    intro hkind hcontra
    have hway : Way Entry.dir Entry.ino Entry.name N.dirEntries rootDirObjID p e.ino := by
      rw [append_of_splitPath (ne_nil_of_ordinary hp) rfl, ← hname]
      exact Way.snoc (h.way (pathLookupIno_inv hold).1 (h.wf.dir e he)) ⟨he, hkind⟩
    have hpre := hway.isPrefix_of_below h.wf.oneParent (fun x hx => h.wf.noRoot x hx.1)
      (hcontra.mono fun x hx => ⟨hsub hx.1, hx.2⟩) (h.way (pathLookupIno_inv hnew).1 hnewdir)
    exact hprefix (hpre.trans (List.dropLast_prefix q))
  rw [← hname] at hmove
  obtain ⟨idx, h'⟩ := h₁.move hs' he₁ hnewdir₁ hfree hq hidx hbelow hmove
  refine ⟨s₁, N₁, e, ⟨newParent, idx, (splitPath q).2, e.ino, e.ft⟩, ?_⟩
  exact ⟨he, hname, hold, rfl, hnew, hnewdir, rfl, rfl, hcleared, h₁, hsub, he₁, hmove, h'⟩

theorem Holds.rename (h : Holds s N) (hs' : Intact s') (hdom : InDomain (.rename p q) s)
    (hrange : InRange (.rename p q) s) (hrun : renameEntry mapBackend now p q s = .ok () s') :
    ∃ N', Holds s' N' ∧ (N.Named → N'.Named) ∧ ∀ x ∈ N'.entries, x ∈ N.entries ∨ x.At s q := by
  obtain ⟨s₁, N₁, e, e', hsteps⟩ := h.renameSteps hs' hdom hrange hrun
  refine ⟨_, hsteps.held, fun hN => Names.Named.move ?_ hsteps.ino, fun x hx => ?_⟩
  · rcases hsteps.cleared with ⟨x, -, -, -, -, -, -, rfl⟩ | ⟨-, rfl, -⟩
    · exact hN.remove
    · exact hN
  · rcases Finset.mem_insert.mp hx with rfl | hx
    · exact Or.inr ⟨hsteps.newName, hsteps.newDir⟩
    · exact Or.inl (hsteps.sub (Finset.mem_of_mem_erase hx))

/-- The conditions on a call look at the records only. -/
theorem InDomain.scripted {c : Call} (h : InDomain c s) (script : List (List NodeEvent)) :
    InDomain c (s.scripted script) := by
  cases c <;> simp only [InDomain, ParentIsDir, HashApart, pathLookup_scripted,
    pathLookupIno_scripted, lookupDirEntry_scripted] at h ⊢ <;> exact h

theorem InRange.scripted {c : Call} (h : InRange c s) (script : List (List NodeEvent)) :
    InRange c (s.scripted script) := by
  have hnum : nextInodeNum mapBackend (s.scripted script) = nextInodeNum mapBackend s := rfl
  have hidx : ∀ d, nextDirIndexOffset mapBackend (s.scripted script) d =
    nextDirIndexOffset mapBackend s d := fun _ => rfl
  cases c <;> simp only [InRange, IndexInRange, pathLookup_scripted, pathLookupIno_scripted, hnum,
    hidx] at h ⊢ <;> exact h

/-- The call may take the entry away: `DeleteFile` takes the entry of its path, which does not
    lead to a directory, and of `Rename` and `DeleteDir` nothing is said. -/
def Takes : Call → MapFs → Entry → Prop
  | .deleteFile p, s, e => e.ft ≠ ftDir ∧ e.name = (splitPath p).2 ∧
      pathLookupIno mapBackend s (splitPath p).1 = .ok e.dir
  | .rename _ _, _, _ | .deleteDir _ _, _, _ => True
  | _, _, _ => False

/-- The path under which a call may enter a name. -/
def Call.enters : Call → Option Path
  | .writeFile p _ _ | .makeDir p _ | .symlink _ p | .link _ p | .rename _ p => some p
  | _ => none

/-- Every call keeps a namespace, with a name for every inode, and every entry that it does not take
    away; what is new has the name that the call enters. -/
theorem Holds.call {c : Call} (h : Holds s N) (hs : Intact s) (hdom : InDomain c s)
    (hrange : InRange c s) (hrun : c.run mapBackend now (s.scripted script) = .ok () s') :
    ∃ N', Holds s' N' ∧ (N.Named → N'.Named) ∧ (∀ e ∈ N.entries, Takes c s e ∨ e ∈ N'.entries) ∧
      ∀ x ∈ N'.entries, x ∈ N.entries ∨ ∃ p, c.enters = some p ∧ x.At s p := by
  have hs' : Intact s' := intact_call hs (h.notDangling c) hrun
  have hat : ∀ {x : Entry} {p : Path}, x.At (s.scripted script) p → x.At s p := fun hx =>
    ⟨hx.1, (pathLookupIno_scripted _).symm.trans hx.2⟩
  replace h := h.scripted script
  replace hdom := hdom.scripted script
  replace hrange := hrange.scripted script
  have hxattr : typeXattrItem ∉ nameTypes := by decide
  cases c with
  | writeFile p data perm =>
    obtain ⟨N', h', hN⟩ := h.writeFile hs' hdom hrange hrun
    exact ⟨N', h', hN.named, fun e he => Or.inr (hN.kept he), fun x hx =>
      (hN.new x hx).imp_right fun hx => ⟨p, rfl, hat hx⟩⟩
  | makeDir p perm =>
    obtain ⟨N', h', hN⟩ := h.makeDir hs' hdom hrange hrun
    exact ⟨N', h', hN.named, fun e he => Or.inr (hN.kept he), fun x hx =>
      (hN.new x hx).imp_right fun hx => ⟨p, rfl, hat hx⟩⟩
  | symlink target p =>
    obtain ⟨N', h', hN⟩ := h.symlink hs' hdom hrange hrun
    exact ⟨N', h', hN.named, fun e he => Or.inr (hN.kept he), fun x hx =>
      (hN.new x hx).imp_right fun hx => ⟨p, rfl, hat hx⟩⟩
  | link q p =>
    obtain ⟨e, i, h', hname, hdir, -⟩ := h.link hs' hdom hrange hrun
    refine ⟨_, h', Names.Named.add, fun x hx => Or.inr (Finset.mem_insert_of_mem hx), fun x hx => ?_⟩
    rcases Finset.mem_insert.mp hx with rfl | hx
    · exact Or.inr ⟨p, rfl, hat ⟨hname, hdir⟩⟩
    · exact Or.inl hx
  | rename p q =>
    obtain ⟨N', h', hnamed, hnew⟩ := h.rename hs' hdom hrange hrun
    exact ⟨N', h', hnamed, fun _ _ => Or.inl trivial, fun x hx =>
      (hnew x hx).imp_right fun hx => ⟨q, rfl, hat hx⟩⟩
  | deleteFile p =>
    obtain ⟨e, he, h', hkind, hname, hlook⟩ := h.deleteFile hrun
    refine ⟨_, h', Names.Named.remove, fun x hx => ?_, fun x hx => Or.inl ?_⟩
    · by_cases hxe : x = e
      · subst hxe
        exact Or.inl ⟨hkind, hat ⟨hname, hlook⟩⟩
      · rw [Names.entries_remove]
        exact Or.inr (Finset.mem_erase_of_ne_of_mem hxe hx)
    · rw [Names.entries_remove] at hx
      exact Finset.mem_of_mem_erase hx
  | deleteDir depth p =>
    obtain ⟨e, -, -, -, l, N', hrem, -⟩ := h.deleteDir hrun
    exact ⟨N', hrem.holds h, hrem.named, fun _ _ => Or.inl trivial, fun x hx => Or.inl (hrem.sub hx)⟩
  | truncate p newSize =>
    obtain ⟨i, f, t₁, hlook, hreg, hcut, hf, hedit⟩ := truncateInode_inv hrun
    obtain ⟨g, hg, hsame⟩ := editsTo_truncate hf i.num
    have h₁ : Holds t₁ N := by
      rcases hcut with rfl | ⟨-, hcut⟩
      · exact h
      · exact h.calm ((respects_calm.cutExtents fun _ => Other.of (by decide)).of_ok hcut)
    refine ⟨N, h₁.metadata hg (fun j => ⟨?_, (hsame j).2, fun hdir => ?_⟩) hedit, id, fun _ => Or.inr,
      fun _ => Or.inl⟩
    · rw [InodeItem.isDir, InodeItem.isDir, (hsame j).1]
    · -- only a regular file is truncated
      obtain ⟨hfile, -⟩ := h.mem_files (pathLookup_inv hlook).2 (isDir_of_isRegular hreg)
      exact absurd hfile (Finset.disjoint_left.mp h.wf.apart hdir)
  | setXattr p name value =>
    obtain ⟨i, t₁, -, hset, hedit⟩ := setXattrInode_inv hrun
    have h₁ : Holds t₁ N := by
      rcases hset with hset | ⟨-, hset⟩
      · exact h.calm ((calm_update (k := ⟨_, typeXattrItem, _⟩) hxattr).of_ok hset)
      · exact h.calm ((calm_insert (k := ⟨_, typeXattrItem, _⟩) hxattr).of_ok hset)
    exact ⟨N, h₁.metadata_id (editsTo_id i.num) hedit, id, fun _ => Or.inr, fun _ => Or.inl⟩
  | removeXattr p name =>
    obtain ⟨i, t₁, -, hdel, hedit⟩ := removeXattrInode_inv hrun
    have h₁ : Holds t₁ N := h.calm ((calm_delete (k := ⟨_, typeXattrItem, _⟩) hxattr).of_ok hdel)
    exact ⟨N, h₁.metadata_id (editsTo_id i.num) hedit, id, fun _ => Or.inr, fun _ => Or.inl⟩
  | chmod p perm =>
    obtain ⟨i, -, hedit⟩ := setAttr_inv hrun
    refine ⟨N, h.metadata (editsTo_mode i.num perm) (fun j => ⟨?_, rfl, fun _ => rfl⟩) hedit, id,
      fun _ => Or.inr, fun _ => Or.inl⟩
    simp only [InodeItem.isDir, newMode_type]
  | chown p uid gid =>
    obtain ⟨i, -, hedit⟩ := setAttr_inv hrun
    exact ⟨N, h.metadata_id (editsTo_owner i.num uid gid) hedit, id, fun _ => Or.inr, fun _ => Or.inl⟩
  | chtimes p atime mtime =>
    obtain ⟨i, -, hedit⟩ := setAttr_inv hrun
    exact ⟨N, h.metadata_id (editsTo_times i.num atime mtime) hedit, id, fun _ => Or.inr, fun _ => Or.inl⟩

end calls

/-! ## 3. Runs -/

/-- The namespace of a fresh filesystem. -/
def fmtNames : Names := ⟨{rootDirObjID}, ∅, ∅⟩

theorem wf_fmtNames : fmtNames.WF where
  root := Finset.mem_singleton_self _
  apart := Finset.disjoint_empty_right _
  ok := nofun
  index := nofun
  item := nofun
  dir := nofun
  target := nofun
  oneParent := fun _ hx => nomatch hx.1
  noRoot := nofun
  ranked := ⟨fun _ => 0, fun _ hx => nomatch hx.1⟩

theorem named_fmtNames : fmtNames.Named := by
  rintro n (hn | hn) hroot
  · exact absurd (Finset.mem_singleton.mp hn) hroot
  · cases hn

theorem find?_fmtRecords {now : Timespec} {k : Key}
    (hinode : k ≠ ⟨rootDirObjID, typeInodeItem, 0⟩)
    (href : k ≠ ⟨rootDirObjID, typeInodeRef, rootDirObjID⟩) : (fmtRecords now).find? k = none := by
  rw [fmtRecords, Records.find?_insert_of_ne (Ne.symm href),
    Records.find?_insert_of_ne (Ne.symm hinode)]
  rfl

theorem Formatted.holds (h : Formatted s) : Holds s fmtNames := by
  obtain ⟨now, hrec⟩ := h.records
  have hroot : s.inodeAt rootDirObjID = some (fmtRootInode now) := by
    rw [MapFs.inodeAt, hrec]
    rfl
  have hother : ∀ ino, ino ≠ rootDirObjID → s.inodeAt ino = none := by
    intro ino hne
    rw [MapFs.inodeAt, hrec]
    exact find?_fmtRecords (by simp [hne]) (by simp [typeInodeItem, typeInodeRef])
  have hnone : ∀ k : NameKey, (∀ ino dir, ino = rootDirObjID → k ≠ .ref ino dir) → s.names k = none := by
    intro k hk
    rw [MapFs.names, hrec]
    refine find?_fmtRecords (k.key_ne_inode _) fun heq => ?_
    exact hk rootDirObjID rootDirObjID rfl (NameKey.key_injective heq)
  have hdec := Decodes.fmtRootInode now
  refine ⟨⟨?_, ?_⟩, ⟨?_, ?_, ?_⟩, ?_, wf_fmtNames⟩
  · have hlist : (s.records.keep isNameKey).map Prod.fst =
        [⟨rootDirObjID, typeInodeItem, 0⟩, ⟨rootDirObjID, typeInodeRef, rootDirObjID⟩] := by
      rw [hrec]
      rfl
    rw [Records.Distinct, hlist]
    decide
  · intro ino d hd
    by_cases hne : ino = rootDirObjID
    · rw [hne, hroot, Option.some.injEq] at hd
      exact hd ▸ hdec.ge
    · rw [hother ino hne] at hd
      cases hd
  · intro k d hk
    rw [hnone k fun ino dir _ heq => by rw [heq] at hk; exact hk]
    exact iff_of_false (Option.some_ne_none d).symm (by rintro ⟨e, ⟨⟩, -⟩)
  · intro k d hk
    rw [hnone k fun ino dir _ heq => by rw [heq] at hk; exact hk]
    exact iff_of_false (Option.some_ne_none d).symm (by rintro ⟨e, ⟨⟩, -⟩)
  · intro ino dir hne
    have hrefs : backRefs fmtNames.entries ino dir = ∅ := by
      rw [Set.eq_empty_iff_forall_notMem]
      rintro x ⟨e, he, -⟩
      cases he
    rw [hrefs, hnone (.ref ino dir) fun ino' dir' hino heq => hne ((NameKey.ref.inj heq).1.trans hino)]
    exact refsOf_none
  · intro ino
    by_cases hne : ino = rootDirObjID
    · subst hne
      rw [MapFs.inodes, hroot, Option.map_some, hdec.item]
      exact Or.inl ⟨Finset.mem_singleton_self _, rfl, rfl, rfl⟩
    · rw [MapFs.inodes, hother ino hne]
      exact ⟨fun hmem => hne (Finset.mem_singleton.mp hmem), by rintro ⟨⟩⟩

/-- Along a run the filesystem is intact and holds a namespace. -/
theorem Reachable.holds {s₀ : MapFs} (hfmt : Formatted s₀)
    (hreach : Reachable (fun c s => InDomain c s ∧ InRange c s) s₀ s) :
    Intact s ∧ ∃ N, Holds s N ∧ N.Named := by
  induction hreach with
  | refl => exact ⟨hfmt.intact, _, hfmt.holds, named_fmtNames⟩
  | tail _ hstep ih =>
    obtain ⟨c, now, script, ⟨hdom, hrange⟩, hrun⟩ := hstep
    obtain ⟨hs, N, h, hnamed⟩ := ih
    obtain ⟨N', h', hkeep, -, -⟩ := h.call hs hdom hrange hrun
    exact ⟨intact_call hs (h.notDangling c) hrun, N', h', hkeep hnamed⟩

/-! ## 4. The books -/

/-- The entries in the items of a type, each with the key of its item. -/
def MapFs.dirEntries (s : MapFs) (typ : Nat) : List (Key × DirEntry) :=
  (s.records.keep fun k => decide (k.typ = typ)).flatMap fun x =>
    (parseDirEntries x.2.length x.2).map (Prod.mk x.1)

/-- The back-references from an inode to a directory. -/
def MapFs.inodeRefs (s : MapFs) (ino dir : Nat) : List InodeRefEntry :=
  (s.records.keep fun k => decide (k = ⟨ino, typeInodeRef, dir⟩)).flatMap fun x =>
    parseInodeRefEntries x.2

/-- DIR_INDEX items, DIR_ITEMs, INODE_REFs and the counts in the inodes agree. -/
structure Accounted (s : MapFs) : Prop where
  /-- A name occurs once among the DIR_INDEX items of a directory. -/
  index_once : ((s.dirEntries typeDirIndex).map fun x => (x.1.objID, x.2.name)).Nodup
  /-- A name occurs once among the DIR_ITEMs of a directory. -/
  item_once : ((s.dirEntries typeDirItem).map fun x => (x.1.objID, x.2.name)).Nodup
  item_hash : ∀ x ∈ s.dirEntries typeDirItem, x.1.offset = hashDirName x.2.name
  /-- The two kinds of items have the same entries. -/
  same : ∀ dir y, (∃ idx, (⟨dir, typeDirIndex, idx⟩, y) ∈ s.dirEntries typeDirIndex) ↔
    (⟨dir, typeDirItem, hashDirName y.name⟩, y) ∈ s.dirEntries typeDirItem
  refs : ∀ ino dir x, ino ≠ rootDirObjID → (x ∈ s.inodeRefs ino dir ↔
    ∃ ft, (⟨dir, typeDirIndex, x.idx⟩, ⟨ino, x.name, ft⟩) ∈ s.dirEntries typeDirIndex)
  links : ∀ ino i, readInode mapBackend s ino = .ok i → i.isDir = false →
    i.nlink = ((s.dirEntries typeDirIndex).filter fun x => x.2.inode = ino).length
  dirs : ∀ ino i, readInode mapBackend s ino = .ok i → i.isDir = true →
    i.nlink = 1 ∧ i.size = 2 * (((s.dirEntries typeDirIndex).filter fun x => x.1.objID = ino).map
      fun x => x.2.name.length).sum

theorem Entry.Ok.parseDirEntries {e : Entry} (h : e.Ok) :
    parseDirEntries e.payload.length e.payload = [e.listed] :=
  parseDirEntries_encodeDirItem typeInodeItem h.ino h.ft h.name

/-- The items of a type list the entries, each once. -/
theorem Holds.dirEntries {C : NameKey → Prop} {f : Entry → NameKey} {typ : Nat} (h : Holds s N)
    (hstored : ItemsStored C f s.names N.entries) (hC : ∀ e, C (f e))
    (hinj : ∀ x ∈ N.entries, ∀ y ∈ N.entries, f x = f y → x = y) (htyp : typ ∈ nameTypes)
    (hkey : ∀ k, k.typ = typ ↔ ∃ k' : NameKey, C k' ∧ k = k'.key) :
    ∃ l : List Entry, l.Nodup ∧ (∀ x, x ∈ l ↔ x ∈ N.entries) ∧
      s.dirEntries typ = l.map fun e => ((f e).key, e.listed) := by
  have hmem : ∀ x, x ∈ s.records.keep (fun k => decide (k.typ = typ)) ↔
      ∃ e ∈ N.entries, True ∧ x = ((f e).key, e.payload) := by
    intro x
    refine h.shows.mem_stored (Q := fun _ => True) hstored hC fun k => ?_
    rw [decide_eq_true_eq, hkey]
    simp only [true_and]
  have hdistinct : s.records.Distinct fun k => decide (k.typ = typ) := by
    refine h.ok.distinct.mono fun k hk => ?_
    rw [decide_eq_true_eq] at hk
    exact decide_eq_true (hk ▸ htyp)
  obtain ⟨l, hnodup, hl, hmap⟩ := exists_listing hdistinct hmem hinj
  refine ⟨l, hnodup, fun x => by rw [hl, and_true], ?_⟩
  rw [MapFs.dirEntries, hmap, List.flatMap_map, ← List.flatMap_pure_eq_map]
  refine List.flatMap_congr fun x hx => ?_
  rw [(h.wf.ok x ((hl x).mp hx).1).parseDirEntries]
  rfl

theorem Holds.indexEntries (h : Holds s N) : ∃ l : List Entry, l.Nodup ∧
    (∀ x, x ∈ l ↔ x ∈ N.entries) ∧
    s.dirEntries typeDirIndex = l.map fun e => (e.indexKey.key, e.listed) := by
  refine h.dirEntries h.items.index (fun _ => trivial) h.wf.index (by decide) fun k => ?_
  constructor
  · intro htyp
    exact ⟨.index k.objID k.offset, trivial, by rw [NameKey.key, ← htyp]⟩
  · rintro ⟨k', hk', rfl⟩
    cases k' with
    | index => rfl
    | item => exact absurd hk' id
    | ref => exact absurd hk' id

theorem Holds.itemEntries (h : Holds s N) : ∃ l : List Entry, l.Nodup ∧
    (∀ x, x ∈ l ↔ x ∈ N.entries) ∧
    s.dirEntries typeDirItem = l.map fun e => (e.itemKey.key, e.listed) := by
  refine h.dirEntries h.items.item (fun _ => trivial) h.wf.item (by decide) fun k => ?_
  constructor
  · intro htyp
    exact ⟨.item k.objID k.offset, trivial, by rw [NameKey.key, ← htyp]⟩
  · rintro ⟨k', hk', rfl⟩
    cases k' with
    | index => exact absurd hk' id
    | item => rfl
    | ref => exact absurd hk' id

/-- The back-references of an inode are those of its entries. -/
theorem Holds.mem_inodeRefs (h : Holds s N) {ino dir : Nat} (hroot : ino ≠ rootDirObjID)
    (x : InodeRefEntry) : x ∈ s.inodeRefs ino dir ↔ x ∈ backRefs N.entries ino dir := by
  obtain ⟨l, hl, hv⟩ := h.items.refs ino dir hroot
  have hitem : ∀ d, (⟨ino, typeInodeRef, dir⟩, d) ∈ s.records.list ↔ s.names (.ref ino dir) = some d :=
    fun d => (Records.find?_eq_some_iff h.ok.distinct (isNameKey_key (.ref ino dir))).symm
  have hmem : x ∈ s.inodeRefs ino dir ↔
      ∃ d, s.names (.ref ino dir) = some d ∧ x ∈ parseInodeRefEntries d := by
    simp only [MapFs.inodeRefs, List.mem_flatMap, Records.keep, List.mem_filter, decide_eq_true_eq]
    constructor
    · rintro ⟨⟨k, d⟩, ⟨hlist, hk⟩, hx⟩
      obtain rfl : k = ⟨ino, typeInodeRef, dir⟩ := hk
      exact ⟨d, (hitem d).mp hlist, hx⟩
    · rintro ⟨d, hd, hx⟩
      exact ⟨(⟨ino, typeInodeRef, dir⟩, d), ⟨(hitem d).mpr hd, rfl⟩, hx⟩
  have hparse : parseInodeRefEntries (encodeInodeRefEntries l) = l :=
    parseInodeRefEntries_encode fun y hy => backRefs_ok h.wf.ok ino dir y ((hl y).mp hy)
  rw [hmem, hv, ← hl]
  by_cases hnil : l = []
  · simp [hnil]
  · simp [hnil, hparse]

section books

variable {l : List Entry} (hnodup : l.Nodup) (hl : ∀ x, x ∈ l ↔ x ∈ N.entries)
include hnodup hl

theorem links_eq_length (ino : Nat) : N.links ino = (l.filter fun e => e.ino = ino).length := by
  have hset : N.entries.filter (fun e => e.ino = ino) = (l.filter fun e => e.ino = ino).toFinset := by
    ext x
    simp [hl]
  rw [Names.links, hset, List.toFinset_card_of_nodup (hnodup.filter _)]

theorem sizeOf_eq_sum (dir : Nat) :
    N.sizeOf dir = 2 * ((l.filter fun e => e.dir = dir).map fun e => e.name.length).sum := by
  have hset : N.entries.filter (fun e => e.dir = dir) = (l.filter fun e => e.dir = dir).toFinset := by
    ext x
    simp [hl]
  rw [Names.sizeOf, hset, List.sum_toFinset _ (hnodup.filter _)]

theorem names_nodup (hN : N.WF) : (l.map fun e => (e.dir, e.name)).Nodup := by
  refine hnodup.map_on fun x hx y hy heq => ?_
  obtain ⟨hdir, hname⟩ := Prod.mk.inj heq
  exact hN.eq_of_name ((hl x).mp hx) ((hl y).mp hy) hdir hname

end books

/-- A filesystem that holds a namespace has its books in order. -/
theorem Holds.accounted (h : Holds s N) : Accounted s := by
  obtain ⟨l, hnodup, hl, hindex⟩ := h.indexEntries
  obtain ⟨l', hnodup', hl', hitem⟩ := h.itemEntries
  refine ⟨?_, ?_, ?_, ?_, ?_, ?_, ?_⟩
  · rw [hindex, List.map_map]
    exact names_nodup hnodup hl h.wf
  · rw [hitem, List.map_map]
    exact names_nodup hnodup' hl' h.wf
  · intro x hx
    rw [hitem] at hx
    obtain ⟨e, -, rfl⟩ := List.mem_map.mp hx
    rfl
  · intro dir y
    rw [hindex, hitem]
    simp only [List.mem_map, hl, hl', Prod.mk.injEq]
    constructor
    · rintro ⟨idx, e, he, hkey, rfl⟩
      have hdir : e.dir = dir := congrArg Key.objID hkey
      exact ⟨e, he, by rw [← hdir]; rfl, rfl⟩
    · rintro ⟨e, he, hkey, rfl⟩
      have hdir : e.dir = dir := congrArg Key.objID hkey
      exact ⟨e.idx, e, he, by rw [← hdir]; rfl, rfl⟩
  · intro ino dir x hroot
    rw [h.mem_inodeRefs hroot, hindex]
    simp only [List.mem_map, hl, Prod.mk.injEq]
    constructor
    · rintro ⟨e, he, rfl, rfl, rfl⟩
      exact ⟨e.ft, e, he, rfl, rfl⟩
    · rintro ⟨ft, e, he, hkey, hlisted⟩
      have hfields := DirEntry.mk.inj hlisted
      have hdir : e.dir = dir := congrArg Key.objID hkey
      have hidx : e.idx = x.idx := congrArg Key.offset hkey
      refine ⟨e, he, hdir, hfields.1, ?_⟩
      rw [Entry.backRef, hidx, hfields.2.1]
  · intro ino i hread hdir
    rw [(h.mem_files hread hdir).2, links_eq_length hnodup hl, hindex, List.filter_map, List.length_map]
    rfl
  · intro ino i hread hdir
    obtain ⟨j, hj, -, hone, hsize⟩ := h.inode_of_dir (h.mem_dirs hread hdir)
    obtain rfl : i = j := Option.some.inj ((h.readInode_iff.mp hread).symm.trans hj)
    refine ⟨hone, ?_⟩
    rw [hsize, sizeOf_eq_sum hnodup hl, hindex, List.filter_map, List.map_map]
    rfl

/-! ## 5. A link count that goes round -/

def nameA : Name := [0x61]

def nameF : Name := [0x66]

theorem ordinary_nameA : Ordinary nameA := ⟨by decide, by decide⟩

theorem ordinary_nameF : Ordinary nameF := ⟨by decide, by decide⟩

theorem splitPath_append (p : Path) (x : Name) : splitPath (p ++ [x]) = (p, x) := by
  simp [splitPath]

theorem makeDir_eq {p : Path} {x : Name} {perm parentIno : Nat} {err : Err}
    (hparent : pathLookupIno mapBackend s p = .ok parentIno)
    (habsent : lookupDirEntry mapBackend s parentIno x = .error err) :
    makeDir mapBackend now (p ++ [x]) perm s = createDir mapBackend now parentIno x perm s := by
  simp only [makeDir, splitPath_append]
  refine (bind_of_ok (step_of_reading (f := (pathLookupIno mapBackend · p)) hparent)).trans ?_
  refine (bind_of_ok (run_get.mpr ⟨rfl, rfl⟩)).trans ?_
  rw [habsent]

theorem linkInode_eq {q p : Path} {x : Name} {src : InodeItem} {parentIno : Nat} {err : Err}
    (hsrc : pathLookup mapBackend s q = .ok src) (hkind : src.isDir = false) (hx : x ≠ [])
    (hparent : pathLookupIno mapBackend s p = .ok parentIno)
    (habsent : lookupDirEntry mapBackend s parentIno x = .error err) :
    linkInode mapBackend now q (p ++ [x]) s = addLink mapBackend now src parentIno x s := by
  simp only [linkInode, splitPath_append]
  refine (bind_of_ok (step_of_reading (f := (pathLookup mapBackend · q)) hsrc)).trans ?_
  simp only [hkind, Bool.false_eq_true, if_false, List.isEmpty_iff, hx]
  refine (bind_of_ok (step_of_reading (f := (pathLookupIno mapBackend · p)) hparent)).trans ?_
  refine (bind_of_ok (run_get.mpr ⟨rfl, rfl⟩)).trans ?_
  rw [habsent]

namespace Holds

/-- A way along directories can be walked. -/
theorem walk_of_way (h : Holds s N) {p : Path} {x : Nat}
    (hway : Way Entry.dir Entry.ino Entry.name N.dirEntries rootDirObjID p x) :
    walkPath mapBackend s rootDirObjID p = .ok x := by
  induction hway with
  | nil => rfl
  | snoc _ he ih =>
    rw [walkPath_append ih, walkPath, h.lookup_iff.mpr ⟨_, he.1, rfl, rfl, rfl, rfl⟩]
    rfl

theorem lookup_dir (h : Holds s N) {p : Path} {dir : Nat}
    (hway : Way Entry.dir Entry.ino Entry.name N.dirEntries rootDirObjID p dir) (hdir : dir ∈ N.dirs) :
    ∃ i, pathLookup mapBackend s p = .ok i ∧ i.isDir = true ∧ i.num = dir := by
  obtain ⟨i, hi, hisdir, -⟩ := h.inode_of_dir hdir
  have hread := h.readInode_iff.mpr hi
  exact ⟨i, pathLookup_of_walk (h.walk_of_way hway) hread, hisdir, (readInode_num hread).1⟩

theorem absent (h : Holds s N) {dir : Nat} {x : Name} (hnone : ∀ y ∈ N.entries, y.dir = dir → y.name ≠ x) :
    ∃ err, lookupDirEntry mapBackend s dir x = .error err := by
  cases hlook : lookupDirEntry mapBackend s dir x with
  | error err => exact ⟨err, rfl⟩
  | ok r =>
    obtain ⟨y, hy, hdir, hname, -⟩ := h.lookup_iff.mp hlook
    exact absurd hname (hnone y hy hdir)

theorem inode_of_mem (h : Holds s N) {ino : Nat} (hino : ino ∈ N.dirs ∨ ino ∈ N.files) :
    ∃ i, s.inodes ino = some i := by
  rcases hino with hdir | hfile
  · obtain ⟨i, hi, -⟩ := h.inode_of_dir hdir
    exact ⟨i, hi⟩
  · obtain ⟨i, hi, -⟩ := h.inode_of_file hfile
    exact ⟨i, hi⟩

theorem roomy (h : Holds s N) (hs : Intact s) {X : Set Nat} {B : Nat}
    (hnode : s.sb.nodeSize = fmtNodeSize)
    (hbound : ∀ e ∈ s.records.list, e.1.typ = typeInodeItem → e.1.objID ≤ B)
    (hX : ∀ ino ∈ X, ino ∈ N.dirs ∨ ino ∈ N.files) : Roomy X B (s.scripted []) := by
  refine ⟨rfl, hnode, fun e he => (hs.items e he).1, h.ok.whole, fun ino hino => ?_, hbound⟩
  obtain ⟨i, hi⟩ := h.inode_of_mem (hX ino hino)
  rw [MapFs.inodes, Option.map_eq_some_iff] at hi
  obtain ⟨d, hd, -⟩ := hi
  exact Option.isSome_iff_exists.mpr ⟨d, hd⟩

end Holds

theorem free_nameA {dir : Nat}
    (hlast : ∀ x ∈ N.entries, x.dir = dir → x.name = nameF ∧ x.idx ≤ 3) : N.Free dir nameA := by
  intro x hx hdir
  rw [(hlast x hx hdir).1]
  decide +kernel

/-- A run that has made a way of directories with a name of one file in each, and stands in the
    last of them. -/
structure Chain (n B : Nat) (s : MapFs) (N : Names) (path : Path) (dir file : Nat) : Prop where
  reach : Reachable InDomain fmtMap s
  intact : Intact s
  holds : Holds s N
  way : Way Entry.dir Entry.ino Entry.name N.dirEntries rootDirObjID path dir
  isDir : dir ∈ N.dirs
  top : ∃ x ∈ N.entries, x.dir = rootDirObjID ∧ x.name = nameF ∧ x.ino = file
  isFile : file ∈ N.files
  links : N.links file = n
  nodeSize : s.sb.nodeSize = fmtNodeSize
  bound : ∀ e ∈ s.records.list, e.1.typ = typeInodeItem → e.1.objID ≤ B
  low : rootDirObjID ≤ B

namespace Chain

variable {n B dir file : Nat} {path : Path}

/-- The last directory can be found. -/
theorem lookup (h : Chain n B s N path dir file) :
    ∃ i, pathLookup mapBackend s path = .ok i ∧ i.isDir = true ∧
      pathLookupIno mapBackend s path = .ok dir := by
  obtain ⟨i, hi, hisdir, rfl⟩ := h.holds.lookup_dir h.way h.isDir
  exact ⟨i, hi, hisdir, by rw [pathLookupIno, hi]; rfl⟩

theorem parentIsDir (h : Chain n B s N path dir file) (x : Name) : ParentIsDir s (path ++ [x]) := by
  obtain ⟨i, hi, hisdir, -⟩ := h.lookup
  exact ⟨i, by rw [splitPath_append]; exact hi, hisdir⟩

theorem mem (h : Chain n B s N path dir file) :
    ∀ ino ∈ ({dir, file} : Set Nat), ino ∈ N.dirs ∨ ino ∈ N.files := by
  rintro ino (rfl | rfl)
  · exact Or.inl h.isDir
  · exact Or.inr h.isFile

/-- A name that differs in its hash from the names of the last directory is in the domain. -/
theorem hashApart (h : Chain n B s N path dir file) {x : Name} (hfree : N.Free dir x) :
    HashApart s (path ++ [x]) (path ++ [x]) := by
  intro parentIno y r hparent hlook _
  obtain ⟨-, -, -, hdir⟩ := h.lookup
  rw [splitPath_append] at hparent ⊢
  obtain rfl : dir = parentIno := Except.ok.inj (hdir.symm.trans hparent)
  obtain ⟨e, he, hin, rfl, -⟩ := h.holds.lookup_iff.mp hlook
  exact hfree e he hin

/-- Make a directory in the last one. -/
theorem makeDir (h : Chain n B s N path dir file) (hB : B + 1 < 2 ^ 64)
    (hlast : ∀ x ∈ N.entries, x.dir = dir → x.name = nameF ∧ x.idx ≤ 3) :
    ∃ s' N' dir', Chain n (B + 1) s' N' (path ++ [nameA]) dir' file ∧
      ∀ x ∈ N'.entries, x.dir ≠ dir' := by
  have hs := h.holds.scripted []
  obtain ⟨-, -, -, hlook⟩ := h.lookup
  obtain ⟨err, habsent⟩ := hs.absent (x := nameA) fun y hy hdir heq =>
    absurd ((hlast y hy hdir).1.symm.trans heq) (by decide)
  have hfree := free_nameA hlast
  have hroomy : Roomy {dir, file} B (s.scripted []) :=
    h.holds.roomy h.intact h.nodeSize h.bound h.mem
  have htotal : Total (Roomy {dir, file} B) (createDir mapBackend ⟨0, 0⟩ dir nameA 0)
    (Roomy {dir, file} (B + 1)) := total_createDir h.low (Set.mem_insert dir {file}) (by decide)
  obtain ⟨_, s', hrun, hs'⟩ := htotal (s.scripted []) hroomy
  have hlook' : pathLookupIno mapBackend (s.scripted []) path = .ok dir :=
    (pathLookupIno_scripted path).trans hlook
  have hcall : (Call.makeDir (path ++ [nameA]) 0).run mapBackend ⟨0, 0⟩ (s.scripted []) = .ok () s' := by
    rw [← hrun, ← makeDir_eq hlook' habsent]
    rfl
  have hdom : InDomain (.makeDir (path ++ [nameA]) 0) s := by
    refine ⟨h.parentIsDir nameA, ?_, h.hashApart hfree⟩
    rw [splitPath_append]
    exact ordinary_nameA
  have hintact : Intact s' := intact_call h.intact (h.holds.notDangling _) hcall
  have hidx : nextDirIndexOffset mapBackend (s.scripted []) dir ≤ 4 :=
    nextIndex_le hs.shows hs.items.index (by decide) fun x hx hdir =>
      Nat.lt_succ_of_le (hlast x hx hdir).2
  have hnum := nextInodeNum_le hroomy h.low
  obtain ⟨idx, hholds⟩ := hs.createDir hintact h.isDir hfree ordinary_nameA
    (lt_of_le_of_lt hidx (by decide)) (lt_of_le_of_lt hnum hB) hrun
  have hfresh := hs.fresh
  generalize hnew : nextInodeNum mapBackend (s.scripted []) = new at hholds hfresh
  obtain ⟨hnotdir, hnotfile⟩ := hfresh
  have hnone := h.holds.wf.no_entries hnotdir hnotfile
  generalize he : (⟨dir, idx, nameA, new, ftDir⟩ : Entry) = e at hholds
  obtain ⟨hdir, hname, hino, hft⟩ : e.dir = dir ∧ e.name = nameA ∧ e.ino = new ∧ e.ft = ftDir := by
    subst he
    exact ⟨rfl, rfl, rfl, rfl⟩
  have hsub : N.dirEntries ⊆ (N.create e).dirEntries := fun x hx =>
    ⟨Finset.mem_insert_of_mem hx.1, hx.2⟩
  have hway : Way Entry.dir Entry.ino Entry.name (N.create e).dirEntries rootDirObjID path e.dir := by
    rw [hdir]
    exact h.way.mono hsub
  replace hway := Way.snoc hway ⟨Finset.mem_insert_self _ _, hft⟩
  rw [hname, hino] at hway
  have hother : e.ino ≠ file := by
    rintro rfl
    exact hnotfile (hino ▸ h.isFile)
  have hlinks : (N.add e).links file = n := by
    rw [Names.links_add fun hmem => (hnone e hmem).2 hino, if_neg hother, h.links, Nat.add_zero]
  obtain ⟨x, hx, hroot⟩ := h.top
  have hreach : Reachable InDomain fmtMap s' :=
    h.reach.tail ⟨.makeDir (path ++ [nameA]) 0, ⟨0, 0⟩, [], hdom, hcall⟩
  refine ⟨s', N.create e, new, ⟨hreach, hintact, hholds, hway, ?_,
    ⟨x, Finset.mem_insert_of_mem hx, hroot⟩, ?_, hlinks, hs'.nodeSize, hs'.bound,
    h.low.trans (Nat.le_succ B)⟩, ?_⟩
  · simp [Names.create, hft, hino]
  · simp [Names.create, hft, h.isFile]
  · intro y hy
    rcases Finset.mem_insert.mp hy with rfl | hy
    · rw [hdir]
      exact fun heq => hnotdir (heq ▸ h.isDir)
    · exact (hnone y hy).1

/-- The file is found under its first name. -/
theorem lookup_file (h : Chain n B s N path dir file) :
    ∃ src, pathLookup mapBackend s [nameF] = .ok src ∧ src.isDir = false ∧ src.num = file := by
  obtain ⟨x, hx, hdir, hname, rfl⟩ := h.top
  have hlook := h.holds.lookup_iff.mpr ⟨x, hx, hdir, hname, rfl, rfl⟩
  obtain ⟨src, hsrc, hkind, -⟩ := h.holds.inode_of_file h.isFile
  have hread := h.holds.readInode_iff.mpr hsrc
  have hwalk : walkPath mapBackend s rootDirObjID [nameF] = .ok x.ino := by
    rw [walkPath, hlook]
    rfl
  exact ⟨src, pathLookup_of_walk hwalk hread, hkind, (readInode_num hread).1⟩

/-- Link the file into the last directory, which is empty. -/
theorem linkInode (h : Chain n B s N path dir file) (hempty : ∀ x ∈ N.entries, x.dir ≠ dir) :
    ∃ src s', src.num = file ∧ CallStep InDomain s s' ∧ Intact s' ∧ Roomy {dir, file} B s' ∧
      addLink mapBackend ⟨0, 0⟩ src dir nameF (s.scripted []) = .ok () s' := by
  have hs := h.holds.scripted []
  obtain ⟨-, -, -, hlook⟩ := h.lookup
  have hlook' : pathLookupIno mapBackend (s.scripted []) path = .ok dir :=
    (pathLookupIno_scripted path).trans hlook
  obtain ⟨src, hsrc, hkind, rfl⟩ := h.lookup_file
  have hsrc' : pathLookup mapBackend (s.scripted []) [nameF] = .ok src :=
    (pathLookup_scripted [nameF]).trans hsrc
  obtain ⟨err, habsent⟩ := hs.absent (x := nameF) fun y hy hdir => absurd hdir (hempty y hy)
  have hroomy : Roomy {dir, src.num} B (s.scripted []) :=
    h.holds.roomy h.intact h.nodeSize h.bound h.mem
  have hroot : src.num ≠ rootDirObjID := by
    intro heq
    exact Finset.disjoint_left.mp h.holds.wf.apart h.holds.wf.root (heq ▸ h.isFile)
  have hnoRef : (s.scripted []).records.find? ⟨src.num, typeInodeRef, dir⟩ = none := by
    refine (hs.items.refs src.num dir hroot).eq_none (Set.eq_empty_iff_forall_notMem.mpr ?_)
    rintro x ⟨e, he, hdir, -⟩
    exact hempty e he hdir
  have htotal : Total (fun s => Roomy {dir, src.num} B s ∧
      s.records.find? ⟨src.num, typeInodeRef, dir⟩ = none)
      (addLink mapBackend ⟨0, 0⟩ src dir nameF) (Roomy {dir, src.num} B) :=
    total_addLink (Set.mem_insert_of_mem dir (Set.mem_singleton _)) (Set.mem_insert dir {src.num})
      (by decide)
  obtain ⟨_, s', hrun, hs'⟩ := htotal (s.scripted []) ⟨hroomy, hnoRef⟩
  have hcall : (Call.link [nameF] (path ++ [nameF])).run mapBackend ⟨0, 0⟩ (s.scripted []) =
      .ok () s' := by
    rw [← hrun, ← linkInode_eq hsrc' hkind ordinary_nameF.1 hlook' habsent]
    rfl
  have hdom : InDomain (.link [nameF] (path ++ [nameF])) s := by
    refine ⟨h.parentIsDir nameF, ?_, h.hashApart fun x hx hdir => absurd hdir (hempty x hx)⟩
    rw [splitPath_append]
    exact ordinary_nameF
  exact ⟨src, s', rfl, ⟨_, _, _, hdom, hcall⟩, intact_call h.intact (h.holds.notDangling _) hcall, hs',
    hrun⟩

/-- One more link, as long as the count fits. -/
theorem link (h : Chain n B s N path dir file) (hempty : ∀ x ∈ N.entries, x.dir ≠ dir)
    (hn : n + 1 < 2 ^ 32) :
    ∃ s' N', Chain (n + 1) B s' N' path dir file ∧
      ∀ x ∈ N'.entries, x.dir = dir → x.name = nameF ∧ x.idx ≤ 3 := by
  have hs := h.holds.scripted []
  obtain ⟨src, s', rfl, hstep, hintact, hroomy, hrun⟩ := h.linkInode hempty
  have hidx : nextDirIndexOffset mapBackend (s.scripted []) dir ≤ 3 :=
    nextIndex_le hs.shows hs.items.index le_rfl fun x hx hdir => absurd hdir (hempty x hx)
  obtain ⟨x, hx, hroot⟩ := h.top
  have hnum : src.num < 2 ^ 64 := hroot.2.2 ▸ (h.holds.wf.ok x hx).ino
  have hholds := hs.addLink hintact h.isFile h.isDir (fun y hy hdir => absurd hdir (hempty y hy))
    ordinary_nameF (lt_of_le_of_lt hidx (by decide)) hnum (h.links ▸ hn) hrun
  generalize he : (⟨dir, nextDirIndexOffset mapBackend (s.scripted []) dir, nameF, src.num,
    if src.isSymlink then ftSymlink else ftRegFile⟩ : Entry) = e at hholds
  obtain ⟨hdir, hname, hino, hle⟩ : e.dir = dir ∧ e.name = nameF ∧ e.ino = src.num ∧ e.idx ≤ 3 := by
    subst he
    exact ⟨rfl, rfl, rfl, hidx⟩
  have hsub : N.dirEntries ⊆ (N.add e).dirEntries := fun x hx => ⟨Finset.mem_insert_of_mem hx.1, hx.2⟩
  have hlinks : (N.add e).links src.num = n + 1 := by
    rw [Names.links_add fun hmem => hempty e hmem hdir, if_pos hino, h.links]
  refine ⟨s', N.add e, ⟨h.reach.tail hstep, hintact, hholds, h.way.mono hsub, h.isDir,
    ⟨x, Finset.mem_insert_of_mem hx, hroot⟩, h.isFile, hlinks, hroomy.nodeSize, hroomy.bound, h.low⟩, ?_⟩
  intro y hy hydir
  rcases Finset.mem_insert.mp hy with rfl | hy
  · exact ⟨hname, hle⟩
  · exact absurd hydir (hempty y hy)

/-- The link after the largest count the field can hold. -/
theorem not_accounted (h : Chain n B s N path dir file) (hempty : ∀ x ∈ N.entries, x.dir ≠ dir)
    (hn : n + 1 = 2 ^ 32) : ∃ s', Reachable InDomain fmtMap s' ∧ ¬ Accounted s' := by
  have hs := h.holds.scripted []
  obtain ⟨src, s', rfl, hstep, -, -, hrun⟩ := h.linkInode hempty
  refine ⟨s', h.reach.tail hstep, fun hbooks => ?_⟩
  obtain ⟨v', i, j, hitems, hi, hj, hshows⟩ := hs.addLink_shows h.isFile
    (fun y hy hdir => absurd hdir (hempty y hy)) ordinary_nameF hrun
  obtain ⟨i', hi', hkind, hcount⟩ := hs.inode_of_file h.isFile
  obtain rfl : i' = i := Option.some.inj (hi'.symm.trans hi)
  have hne : src.num ≠ dir := by
    intro heq
    exact Finset.disjoint_left.mp h.holds.wf.apart h.isDir (heq ▸ h.isFile)
  have hread : readInode mapBackend s' src.num = .ok { i' with nlink := (i'.nlink + 1) % 2 ^ 32 } := by
    rw [hshows.readInode_iff, Function.update_of_ne hne, Function.update_self]
  have hcount' : (i'.nlink + 1) % 2 ^ 32 = 0 := by rw [hcount, h.links, hn, Nat.mod_self]
  -- the count is back at zero, and the new entry is there
  have hzero := hbooks.links src.num _ hread hkind
  simp only [hcount'] at hzero
  generalize he : (⟨dir, nextDirIndexOffset mapBackend (s.scripted []) dir, nameF, src.num,
    if src.isSymlink then ftSymlink else ftRegFile⟩ : Entry) = e at hitems
  obtain ⟨hino, hft, hname⟩ : e.ino = src.num ∧ e.ft < 256 ∧ e.name = nameF := by
    subst he
    refine ⟨rfl, ?_, rfl⟩
    dsimp only
    split_ifs <;> decide
  obtain ⟨x, hx, -, -, hxino⟩ := h.top
  have hnum : e.ino < 2 ^ 64 := by
    rw [hino, ← hxino]
    exact (h.holds.wf.ok x hx).ino
  have hitem : (e.indexKey.key, e.payload) ∈ s'.records.list :=
    Records.mem_of_find? ((hshows.find?_key e.indexKey).trans
      (hitems.index.eq_some (Finset.mem_insert_self _ _) trivial))
  have hlisted : (e.indexKey.key, e.listed) ∈ s'.dirEntries typeDirIndex := by
    have hparse := parseDirEntries_encodeDirItem typeInodeItem hnum hft
      (show e.name.length < 2 ^ 16 by rw [hname]; decide)
    refine List.mem_flatMap.mpr ⟨_, List.mem_filter.mpr ⟨hitem, rfl⟩, List.mem_map.mpr ⟨_, ?_, rfl⟩⟩
    rw [Entry.payload, hparse]
    exact List.mem_singleton_self _
  have hnil := List.length_eq_zero_iff.mp hzero.symm
  exact List.filter_eq_nil_iff.mp hnil _ hlisted (decide_eq_true hino)

/-- Directories and links follow one another for as long as the count fits. -/
theorem extend (k : Nat) (h : Chain n B s N path dir file) (hB : B + k < 2 ^ 63)
    (hlast : ∀ x ∈ N.entries, x.dir = dir → x.name = nameF ∧ x.idx ≤ 3) (hn : n + k < 2 ^ 32) :
    ∃ s' N' path' dir', Chain (n + k) (B + k) s' N' path' dir' file ∧
      ∀ x ∈ N'.entries, x.dir = dir' → x.name = nameF ∧ x.idx ≤ 3 := by
  induction k with
  | zero => exact ⟨s, N, path, dir, h, hlast⟩
  | succ k ih =>
    obtain ⟨s₁, N₁, path₁, dir₁, h₁, hlast₁⟩ := ih (by omega) (by omega)
    obtain ⟨s₂, N₂, dir₂, h₂, hempty⟩ := h₁.makeDir (by omega) hlast₁
    obtain ⟨s₃, N₃, h₃, hlast₃⟩ := h₂.link hempty (by omega)
    exact ⟨s₃, N₃, _, dir₂, h₃, hlast₃⟩

end Chain

def writeF : Call := .writeFile [nameF] [] 0o644

theorem inDomain_writeF : InDomain writeF fmtMap := by
  have hholds := formatted_fmtMap.holds
  obtain ⟨i, hi, hdir, -⟩ := hholds.lookup_dir Way.nil (Finset.mem_singleton_self _)
  refine ⟨⟨i, hi, hdir⟩, ordinary_nameF, fun parentIno x r _ hlook => ?_⟩
  obtain ⟨e, he, -⟩ := hholds.lookup_iff.mp hlook
  cases he

theorem run_writeF : writeF.run mapBackend ⟨0, 0⟩ (fmtMap.scripted []) = .ok () (writeF.after fmtMap) :=
  Call.run_after (by decide +kernel)

theorem reachable_writeF :
    Reachable (fun c s => InDomain c s ∧ InRange c s) fmtMap (writeF.after fmtMap) := by
  have hholds := formatted_fmtMap.holds
  have hidx : IndexInRange fmtMap [nameF] := fun _ _ =>
    lt_of_le_of_lt (nextIndex_le hholds.shows hholds.items.index le_rfl nofun) (by decide)
  exact .single ⟨writeF, _, _, ⟨inDomain_writeF, by decide +kernel, hidx⟩, run_writeF⟩

/-- The first name of the file. -/
theorem chain_writeF : ∃ N file, Chain 1 257 (writeF.after fmtMap) N [] rootDirObjID file ∧
    ∀ x ∈ N.entries, x.dir = rootDirObjID → x.name = nameF ∧ x.idx ≤ 3 := by
  have hs := formatted_fmtMap.holds.scripted []
  have hintact : Intact (writeF.after fmtMap) :=
    intact_call formatted_fmtMap.intact (formatted_fmtMap.holds.notDangling _) run_writeF
  obtain ⟨i, hi, -, hnum⟩ := hs.lookup_dir Way.nil (Finset.mem_singleton_self _)
  obtain ⟨parentIno, hlook, hcase⟩ := writeFile_inv (splitPath_append [] nameF) run_writeF
  rw [pathLookupIno, hi] at hlook
  obtain rfl : rootDirObjID = parentIno := hnum ▸ Except.ok.inj hlook
  have hsmall : nextInodeNum mapBackend (fmtMap.scripted []) = 257 ∧
      nextDirIndexOffset mapBackend (fmtMap.scripted []) rootDirObjID = 3 := by decide +kernel
  rcases hcase with ⟨ino, ft, hentry, -⟩ | ⟨err, -, hcreate⟩
  · obtain ⟨e, he, -⟩ := hs.lookup_iff.mp hentry
    cases he
  obtain ⟨idx, hholds⟩ := hs.createInode hintact (Finset.mem_singleton_self _) (by rintro e ⟨⟩) ordinary_nameF
    (by rw [hsmall.2]; decide) (by rw [hsmall.1]; decide) (by decide) (by decide) (fileMode_lt _)
    (by rw [isRegular_fileMode]; decide) hcreate
  rw [hsmall.1] at hholds
  have hmem : (⟨rootDirObjID, idx, nameF, 257, ftRegFile⟩ : Entry) ∈
      (fmtNames.create ⟨rootDirObjID, idx, nameF, 257, ftRegFile⟩).entries := Finset.mem_insert_self _ _
  have hidx := lt_nextIndex hholds.shows hholds.items.index hmem
  have hnext : nextDirIndexOffset mapBackend (writeF.after fmtMap) rootDirObjID = 4 := by decide +kernel
  refine ⟨_, 257, ⟨Relation.ReflTransGen.single ⟨writeF, _, _, inDomain_writeF, run_writeF⟩, hintact,
    hholds, Way.nil, Finset.mem_singleton_self _, ⟨_, hmem, rfl, rfl, rfl⟩, Finset.mem_insert_self _ _,
    rfl, by decide +kernel, by decide +kernel, by decide⟩, ?_⟩
  intro x hx _
  obtain rfl := Finset.mem_singleton.mp hx
  exact ⟨rfl, Nat.lt_succ_iff.mp (lt_of_lt_of_eq hidx hnext)⟩

/-! ## 6. Runs -/

/-- Along every run of calls on ordinary names in directories, as long as the link counts and the
    numbers handed out fit in their fields, the books are in order. -/
theorem reachable_accounted {s₀ : MapFs} (hfmt : Formatted s₀)
    (hreach : Reachable (fun c s => InDomain c s ∧ InRange c s) s₀ s) : Accounted s := by
  obtain ⟨-, N, h, -⟩ := Reachable.holds hfmt hreach
  exact h.accounted

theorem accounted_writeF : Formatted fmtMap ∧
    Reachable (fun c s => InDomain c s ∧ InRange c s) fmtMap (writeF.after fmtMap) ∧
    Accounted (writeF.after fmtMap) :=
  ⟨formatted_fmtMap, reachable_writeF, reachable_accounted formatted_fmtMap reachable_writeF⟩

/-- A file in as many directories as its link count can say, and in one more: every call is on
    ordinary names in directories, and the count of the file is zero. -/
theorem link_count_wraps : ∃ s, Formatted fmtMap ∧ Reachable InDomain fmtMap s ∧ ¬ Accounted s := by
  obtain ⟨N, file, h, hlast⟩ := chain_writeF
  obtain ⟨s₁, N₁, path₁, dir₁, h₁, hlast₁⟩ := h.extend (2 ^ 32 - 2) (by decide) hlast (by decide)
  obtain ⟨s₂, N₂, dir₂, h₂, hempty⟩ := h₁.makeDir (by decide) hlast₁
  obtain ⟨s₃, hreach, hbooks⟩ := h₂.not_accounted hempty (by decide)
  exact ⟨s₃, formatted_fmtMap, hreach, hbooks⟩

end Btrfs
