/-
  Btrfs/Lookups.lean
  ==================
  **What lookups see of the records.**

  A name is looked up in the DIR_ITEM with its hash first and then among the DIR_INDEX
  items of the directory.  Steps that touch neither do not change what a path leads to.
  A new entry is found under its name, and under no other, even when its hash is that of
  an entry that was there before: the new DIR_ITEM goes behind the old one and the lookup
  falls back to the index.
-/
import Btrfs.MapFs
import Btrfs.Entries

namespace Btrfs

open Lib

variable {s s' : MapFs}

/-! ## 1. Steps that leave the entries alone -/

/-- The DIR_ITEMs and DIR_INDEX items are the same. -/
structure SameEntries (r r' : Records Key Bytes) : Prop where
  hashed : ∀ dirIno h, r'.find? ⟨dirIno, typeDirItem, h⟩ = r.find? ⟨dirIno, typeDirItem, h⟩
  indexed : ∀ dirIno, r'.keep (inPrefix dirIno typeDirIndex) = r.keep (inPrefix dirIno typeDirIndex)

namespace SameEntries

variable {r r' r₁ : Records Key Bytes} {k : Key} {d : Bytes}

theorem refl (r : Records Key Bytes) : SameEntries r r := ⟨fun _ _ => rfl, fun _ => rfl⟩

theorem trans (h : SameEntries r r₁) (h' : SameEntries r₁ r') : SameEntries r r' :=
  ⟨fun _ _ => (h'.hashed _ _).trans (h.hashed _ _), fun _ => (h'.indexed _).trans (h.indexed _)⟩

theorem not_inPrefix {dirIno typ : Nat} (h : k.typ ≠ typ) : inPrefix dirIno typ k = false := by
  simp only [inPrefix, decide_eq_false_iff_not, not_and]
  exact fun _ => h

theorem ne_of_typ {k' : Key} (h : k.typ ≠ k'.typ) : k ≠ k' := fun heq => h (heq ▸ rfl)

theorem insert (hitem : k.typ ≠ typeDirItem) (hindex : k.typ ≠ typeDirIndex) :
    SameEntries r (r.insert k d) :=
  ⟨fun _ _ => Records.find?_insert_of_ne (ne_of_typ hitem),
    fun _ => Records.keep_insert_of_false (not_inPrefix hindex)⟩

theorem update (hitem : k.typ ≠ typeDirItem) (hindex : k.typ ≠ typeDirIndex) :
    SameEntries r (r.update k d) :=
  ⟨fun _ _ => Records.find?_update_of_ne (ne_of_typ hitem),
    fun _ => Records.keep_update_of_false (not_inPrefix hindex)⟩

theorem erase (hitem : k.typ ≠ typeDirItem) (hindex : k.typ ≠ typeDirIndex) :
    SameEntries r (r.erase k) :=
  ⟨fun _ _ => Records.find?_erase_of_ne (ne_of_typ hitem),
    fun _ => Records.keep_erase_of_false (not_inPrefix hindex)⟩

theorem removeAll {objID typ : Nat} (hitem : typ ≠ typeDirItem) (hindex : typ ≠ typeDirIndex) :
    SameEntries r (r.removeAll (inPrefix objID typ)) := by
  refine ⟨fun _ _ => Records.find?_removeAll (not_inPrefix (Ne.symm hitem)), fun _ =>
    Records.keep_removeAll ?_⟩
  intro k hk
  rw [inPrefix, decide_eq_true_eq] at hk
  exact not_inPrefix (by rw [hk.2]; exact Ne.symm hindex)

end SameEntries

section congr

variable (h : SameEntries s.records s'.records)
include h

theorem lookupDirEntry_congr (dirIno : Nat) (name : Name) :
    lookupDirEntry mapBackend s' dirIno name = lookupDirEntry mapBackend s dirIno name := by
  simp only [lookupDirEntry, lookupHashed, lookupIndexed, mapBackend, mapSearch, mapCollect,
    h.hashed, h.indexed]

theorem walkPath_congr (ino : Nat) (p : Path) :
    walkPath mapBackend s' ino p = walkPath mapBackend s ino p := by
  induction p generalizing ino with
  | nil => rfl
  | cons name p ih =>
    rw [walkPath, walkPath, lookupDirEntry_congr h]
    cases lookupDirEntry mapBackend s ino name with
    | error e => rfl
    | ok r => exact ih r.1

end congr

theorem readInode_congr {ino : Nat}
    (h : s'.records.find? ⟨ino, typeInodeItem, 0⟩ = s.records.find? ⟨ino, typeInodeItem, 0⟩) :
    readInode mapBackend s' ino = readInode mapBackend s ino := by
  simp only [readInode, mapBackend, mapSearch, h]

theorem pathLookup_congr (h : SameEntries s.records s'.records)
    (hread : ∀ ino, readInode mapBackend s' ino = readInode mapBackend s ino) (p : Path) :
    pathLookup mapBackend s' p = pathLookup mapBackend s p := by
  simp only [pathLookup, walkPath_congr h, hread]

/-- Lookups see the records only. -/
theorem pathLookup_records (h : s'.records = s.records) (p : Path) :
    pathLookup mapBackend s' p = pathLookup mapBackend s p :=
  pathLookup_congr (h ▸ SameEntries.refl _) (fun ino => readInode_congr (by rw [h])) p

theorem lookupDirEntry_records (h : s'.records = s.records) (dirIno : Nat) (name : Name) :
    lookupDirEntry mapBackend s' dirIno name = lookupDirEntry mapBackend s dirIno name :=
  lookupDirEntry_congr (h ▸ SameEntries.refl _) dirIno name

theorem pathLookupIno_records (h : s'.records = s.records) (p : Path) :
    pathLookupIno mapBackend s' p = pathLookupIno mapBackend s p := by
  rw [pathLookupIno, pathLookupIno, pathLookup_records h]

/-- The number of an inode that was read is the one asked for. -/
theorem readInode_num {ino : Nat} {i : InodeItem} (h : readInode mapBackend s ino = .ok i) :
    i.num = ino ∧ ∃ d, s.records.find? ⟨ino, typeInodeItem, 0⟩ = some d ∧ Decodes d d.length i := by
  simp only [readInode, mapBackend, mapSearch] at h
  cases hd : s.records.find? ⟨ino, typeInodeItem, 0⟩ with
  | none => rw [hd] at h; cases h
  | some d =>
    simp only [hd] at h
    by_cases hlen : d.length < inodeItemSize
    · rw [if_pos hlen] at h
      cases h
    · rw [if_neg hlen] at h
      cases h
      exact ⟨rfl, d, rfl, rfl, not_lt.mp hlen, rfl⟩

theorem readInode_of_decodes {ino : Nat} {d : Bytes} {i : InodeItem} {len : Nat}
    (hd : s.records.find? ⟨ino, typeInodeItem, 0⟩ = some d) (hdec : Decodes d len i)
    (hnum : i.num = ino) : readInode mapBackend s ino = .ok i := by
  simp only [readInode, mapBackend, mapSearch, hd]
  rw [if_neg (not_lt.mpr hdec.ge), ← hnum, hdec.item]

theorem pathLookup_inv {p : Path} {i : InodeItem} (h : pathLookup mapBackend s p = .ok i) :
    walkPath mapBackend s rootDirObjID p = .ok i.num ∧ readInode mapBackend s i.num = .ok i := by
  rw [pathLookup] at h
  by_cases hp : p.isEmpty = true
  · rw [if_pos hp] at h
    obtain ⟨hnum, -⟩ := readInode_num h
    rw [List.isEmpty_iff.mp hp, walkPath, hnum]
    exact ⟨rfl, h⟩
  · rw [if_neg hp] at h
    cases hwalk : walkPath mapBackend s rootDirObjID p with
    | error e => rw [hwalk] at h; cases h
    | ok ino =>
      rw [hwalk] at h
      cases hread : readInode mapBackend s ino with
      | error e => simp only [hread] at h; cases h
      | ok j =>
        simp only [hread] at h
        cases h
        obtain ⟨rfl, -⟩ := readInode_num hread
        exact ⟨rfl, hread⟩

theorem pathLookup_of_walk {p : Path} {ino : Nat} {i : InodeItem}
    (hwalk : walkPath mapBackend s rootDirObjID p = .ok ino)
    (hread : readInode mapBackend s ino = .ok i) : pathLookup mapBackend s p = .ok i := by
  rw [pathLookup]
  by_cases hp : p.isEmpty = true
  · rw [if_pos hp]
    rw [List.isEmpty_iff.mp hp, walkPath] at hwalk
    cases hwalk
    exact hread
  · rw [if_neg hp, hwalk]
    simp only [hread]

theorem pathLookupIno_inv {p : Path} {ino : Nat} (h : pathLookupIno mapBackend s p = .ok ino) :
    walkPath mapBackend s rootDirObjID p = .ok ino ∧ ∃ i, readInode mapBackend s ino = .ok i := by
  rw [pathLookupIno] at h
  cases hp : pathLookup mapBackend s p with
  | error e => rw [hp] at h; cases h
  | ok i =>
    rw [hp] at h
    cases h
    obtain ⟨hwalk, hread⟩ := pathLookup_inv hp
    exact ⟨hwalk, i, hread⟩

theorem walkPath_append {ino mid : Nat} {p q : Path} (h : walkPath mapBackend s ino p = .ok mid) :
    walkPath mapBackend s ino (p ++ q) = walkPath mapBackend s mid q := by
  induction p generalizing ino with
  | nil =>
    rw [walkPath] at h
    cases h
    rfl
  | cons name p ih =>
    rw [walkPath] at h
    rw [List.cons_append, walkPath]
    cases hl : lookupDirEntry mapBackend s ino name with
    | error e => rw [hl] at h; cases h
    | ok r =>
      rw [hl] at h
      exact ih h

/-- The last step of a walk. -/
theorem walkPath_concat_inv {start ino : Nat} {p : Path} {name : Name}
    (h : walkPath mapBackend s start (p ++ [name]) = .ok ino) :
    ∃ mid ft, walkPath mapBackend s start p = .ok mid ∧
      lookupDirEntry mapBackend s mid name = .ok (ino, ft) := by
  induction p generalizing start with
  | nil =>
    rw [List.nil_append, walkPath] at h
    cases hl : lookupDirEntry mapBackend s start name with
    | error e => rw [hl] at h; cases h
    | ok r =>
      rw [hl] at h
      obtain ⟨child, ft⟩ := r
      simp only [walkPath] at h
      cases h
      exact ⟨start, ft, rfl, hl⟩
  | cons x p ih =>
    rw [List.cons_append, walkPath] at h
    rw [walkPath]
    cases hl : lookupDirEntry mapBackend s start x with
    | error e => rw [hl] at h; cases h
    | ok r =>
      rw [hl] at h
      exact ih h

/-! ## 2. A new entry -/

/-- The lookups a walk makes: directory and name. -/
def walkSteps (s : MapFs) : Nat → Path → List (Nat × Name)
  | _, [] => []
  | ino, name :: p =>
    (ino, name) ::
      match lookupDirEntry mapBackend s ino name with
      | .ok r => walkSteps s r.1 p
      | .error _ => []

/-- A walk succeeds when its lookups do. -/
theorem walkSteps_ok {ino n : Nat} {p : Path} (h : walkPath mapBackend s ino p = .ok n) :
    ∀ e ∈ walkSteps s ino p, ∃ r, lookupDirEntry mapBackend s e.1 e.2 = .ok r := by
  induction p generalizing ino with
  | nil => nofun
  | cons name p ih =>
    rw [walkPath] at h
    rw [walkSteps]
    cases hl : lookupDirEntry mapBackend s ino name with
    | error e => rw [hl] at h; cases h
    | ok r =>
      rw [hl] at h
      intro e he
      rcases List.mem_cons.mp he with rfl | he
      · exact ⟨r, hl⟩
      · exact ih h e he

/-- A walk whose lookups are answered alike ends alike. -/
theorem walkPath_of_steps {ino : Nat} {p : Path}
    (h : ∀ e ∈ walkSteps s ino p,
      lookupDirEntry mapBackend s' e.1 e.2 = lookupDirEntry mapBackend s e.1 e.2) :
    walkPath mapBackend s' ino p = walkPath mapBackend s ino p := by
  induction p generalizing ino with
  | nil => rfl
  | cons name p ih =>
    rw [walkSteps] at h
    rw [walkPath, walkPath, h (ino, name) List.mem_cons_self]
    cases hl : lookupDirEntry mapBackend s ino name with
    | error e => rfl
    | ok r =>
      refine ih fun e he => h e (List.mem_cons_of_mem _ ?_)
      rw [hl]
      exact he

theorem lookupDirEntry_ok_iff {dirIno : Nat} {name : Name} {x : Nat × Nat} :
    lookupDirEntry mapBackend s dirIno name = .ok x ↔
      (lookupHashed mapBackend s dirIno name).or (lookupIndexed mapBackend s dirIno name) =
        some x := by
  rw [lookupDirEntry]
  cases (lookupHashed mapBackend s dirIno name).or (lookupIndexed mapBackend s dirIno name) <;> simp

theorem lookupDirEntry_error {dirIno : Nat} {name : Name} {e : Err}
    (h : lookupDirEntry mapBackend s dirIno name = .error e) :
    lookupHashed mapBackend s dirIno name = none ∧
      lookupIndexed mapBackend s dirIno name = none := by
  rw [lookupDirEntry] at h
  cases hl : (lookupHashed mapBackend s dirIno name).or (lookupIndexed mapBackend s dirIno name) with
  | some x => rw [hl] at h; cases h
  | none => exact Option.or_eq_none_iff.mp hl

theorem lookupHashed_eq (s : MapFs) (dirIno : Nat) (name : Name) :
    lookupHashed mapBackend s dirIno name =
      (s.records.find? ⟨dirIno, typeDirItem, hashDirName name⟩).bind fun d => parseDirItems d name := by
  simp only [lookupHashed, mapBackend, mapSearch]
  cases s.records.find? ⟨dirIno, typeDirItem, hashDirName name⟩ <;> rfl

theorem lookupIndexed_eq (s : MapFs) (dirIno : Nat) (name : Name) :
    lookupIndexed mapBackend s dirIno name =
      (s.records.keep (inPrefix dirIno typeDirIndex)).findSome? fun e => parseDirItems e.2 name := by
  simp only [lookupIndexed, mapBackend, mapCollect]
  cases s.records.keep (inPrefix dirIno typeDirIndex) <;> rfl

theorem nextDirIndexOffset_eq (s : MapFs) (dirIno : Nat) :
    nextDirIndexOffset mapBackend s dirIno =
      (s.records.keep (inPrefix dirIno typeDirIndex)).foldl (fun m e => max m e.1.offset) 2 + 1 := by
  simp only [nextDirIndexOffset, mapBackend, mapCollect]
  cases s.records.keep (inPrefix dirIno typeDirIndex) <;> rfl

theorem le_foldl_max (l : List (Key × Bytes)) (m : Nat) :
    m ≤ l.foldl (fun m e => max m e.1.offset) m ∧
      ∀ e ∈ l, e.1.offset ≤ l.foldl (fun m e => max m e.1.offset) m := by
  induction l generalizing m with
  | nil => exact ⟨le_rfl, nofun⟩
  | cons a l ih =>
    obtain ⟨hle, hall⟩ := ih (max m a.1.offset)
    rw [List.foldl_cons]
    refine ⟨(le_max_left _ _).trans hle, ?_⟩
    intro e he
    rcases List.mem_cons.mp he with rfl | he
    · exact (le_max_right _ _).trans hle
    · exact hall e he

/-- The index a new entry gets is above those in use. -/
theorem lt_nextDirIndexOffset {dirIno : Nat} {e : Key × Bytes}
    (h : e ∈ s.records.keep (inPrefix dirIno typeDirIndex)) :
    e.1.offset < nextDirIndexOffset mapBackend s dirIno := by
  rw [nextDirIndexOffset_eq]
  exact Nat.lt_succ_of_le ((le_foldl_max _ 2).2 e h)

/-- An entry was added to a directory under a name and an index of its own. -/
structure EntryAdded (s : MapFs) (dirIno : Nat) (name : Name) (entry : Bytes) (s' : MapFs) :
    Prop where
  hashed_other : ∀ d h, (d, h) ≠ (dirIno, hashDirName name) →
    s'.records.find? ⟨d, typeDirItem, h⟩ = s.records.find? ⟨d, typeDirItem, h⟩
  hashed : s'.records.find? ⟨dirIno, typeDirItem, hashDirName name⟩ =
    some ((s.records.find? ⟨dirIno, typeDirItem, hashDirName name⟩).getD entry)
  indexed_other : ∀ d, d ≠ dirIno → s'.records.keep (inPrefix d typeDirIndex) =
    s.records.keep (inPrefix d typeDirIndex)
  indexed : ∃ idx, s'.records.keep (inPrefix dirIno typeDirIndex) =
    s.records.keep (inPrefix dirIno typeDirIndex) ++ [(⟨dirIno, typeDirIndex, idx⟩, entry)]

section added

variable {dirIno ino ft : Nat} {name : Name}

/-- The new entry is found. -/
theorem EntryAdded.lookup {e : Err}
    (h : EntryAdded s dirIno name (encodeDirItem ino typeInodeItem ft name) s')
    (habsent : lookupDirEntry mapBackend s dirIno name = .error e) (hino : ino < 2 ^ 64)
    (hft : ft < 256) (hname : NameOk name) :
    lookupDirEntry mapBackend s' dirIno name = .ok (ino, ft) := by
  obtain ⟨hnohash, hnoindex⟩ := lookupDirEntry_error habsent
  have hparse := parseDirItems_encodeDirItem typeInodeItem hino hft hname name
  rw [if_pos rfl] at hparse
  obtain ⟨idx, hindexed⟩ := h.indexed
  have hindex : lookupIndexed mapBackend s' dirIno name = some (ino, ft) := by
    rw [lookupIndexed_eq] at hnoindex ⊢
    rw [hindexed, List.findSome?_append, hnoindex, Option.none_or]
    simp only [List.findSome?_cons, hparse]
  rw [lookupDirEntry_ok_iff, hindex]
  rw [lookupHashed_eq] at hnohash ⊢
  rw [h.hashed]
  cases hold : s.records.find? ⟨dirIno, typeDirItem, hashDirName name⟩ with
  | none => simp only [Option.getD_none, Option.bind_some, hparse, Option.some_or]
  | some d =>
    -- an old item with the same hash hides the new one, but does not hold the name
    rw [hold, Option.bind_some] at hnohash
    simp only [Option.getD_some, Option.bind_some, hnohash, Option.none_or]

/-- Lookups of other names, or in other directories, are answered as before. -/
theorem EntryAdded.lookup_other
    (h : EntryAdded s dirIno name (encodeDirItem ino typeInodeItem ft name) s')
    (hino : ino < 2 ^ 64) (hft : ft < 256) (hname : NameOk name) {d : Nat} {x : Name}
    (hother : d = dirIno → x ≠ name) :
    lookupDirEntry mapBackend s' d x = lookupDirEntry mapBackend s d x := by
  by_cases hd : d = dirIno
  · subst hd
    have hparse := parseDirItems_encodeDirItem typeInodeItem hino hft hname x
    rw [if_neg (Ne.symm (hother rfl))] at hparse
    have hhash : lookupHashed mapBackend s' d x = lookupHashed mapBackend s d x := by
      rw [lookupHashed_eq, lookupHashed_eq]
      by_cases heq : hashDirName x = hashDirName name
      · rw [heq, h.hashed]
        cases s.records.find? ⟨d, typeDirItem, hashDirName name⟩ with
        | none => exact hparse
        | some old => rfl
      · rw [h.hashed_other d _ fun hpair => heq (Prod.mk.inj hpair).2]
    have hindex : lookupIndexed mapBackend s' d x = lookupIndexed mapBackend s d x := by
      obtain ⟨idx, hindexed⟩ := h.indexed
      rw [lookupIndexed_eq, lookupIndexed_eq, hindexed, List.findSome?_append]
      simp only [List.findSome?_cons, hparse, List.findSome?_nil, Option.or_none]
    rw [lookupDirEntry, lookupDirEntry, hhash, hindex]
  · have hhash : lookupHashed mapBackend s' d x = lookupHashed mapBackend s d x := by
      rw [lookupHashed_eq, lookupHashed_eq, h.hashed_other d _ fun hpair => hd (Prod.mk.inj hpair).1]
    have hindex : lookupIndexed mapBackend s' d x = lookupIndexed mapBackend s d x := by
      rw [lookupIndexed_eq, lookupIndexed_eq, h.indexed_other d hd]
    rw [lookupDirEntry, lookupDirEntry, hhash, hindex]

/-- A walk that succeeded without the new entry goes on as before. -/
theorem EntryAdded.walk {e : Err} {start n : Nat} {p : Path}
    (h : EntryAdded s dirIno name (encodeDirItem ino typeInodeItem ft name) s')
    (habsent : lookupDirEntry mapBackend s dirIno name = .error e) (hino : ino < 2 ^ 64)
    (hft : ft < 256) (hname : NameOk name) (hwalk : walkPath mapBackend s start p = .ok n) :
    walkPath mapBackend s' start p = .ok n := by
  rw [← hwalk]
  refine walkPath_of_steps fun x hx => ?_
  refine h.lookup_other hino hft hname fun hd hx' => ?_
  obtain ⟨r, hr⟩ := walkSteps_ok hwalk x hx
  rw [hd, hx', habsent] at hr
  cases hr

end added

end Btrfs
