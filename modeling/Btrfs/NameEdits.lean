/-
  Btrfs/NameEdits.lean
  ====================
  **Edits of a namespace.**

  An entry is entered, taken away or moved.  What stays in order is a matter of the
  namespace alone; how the items follow is left to the calls.  A directory may be moved
  wherever it does not come to lie below itself.
-/
import Btrfs.Namespace

namespace Btrfs

open Lib

namespace Names

variable {N : Names} {e e' : Entry} {D F : Finset Nat} {E : Finset Entry}

/-! ## 1. Order -/

theorem injOn_insert {f : Entry → NameKey} (h : ∀ x ∈ E, ∀ y ∈ E, f x = f y → x = y)
    (hnew : ∀ x ∈ E, f x ≠ f e) : ∀ x ∈ insert e E, ∀ y ∈ insert e E, f x = f y → x = y := by
  intro x hx y hy heq
  rcases Finset.mem_insert.mp hx with rfl | hxE <;> rcases Finset.mem_insert.mp hy with rfl | hyE
  · rfl
  · exact absurd heq.symm (hnew y hyE)
  · exact absurd heq (hnew x hxE)
  · exact h x hxE y hyE heq

/-- One more entry, where the directories still form a tree. -/
theorem WF.insert (h : N.WF) (hD : N.dirs ⊆ D) (hF : N.files ⊆ F) (hapart : Disjoint D F)
    (hok : e.Ok) (hindex : ∀ x ∈ N.entries, x.indexKey ≠ e.indexKey)
    (hitem : ∀ x ∈ N.entries, x.itemKey ≠ e.itemKey) (hdir : e.dir ∈ D)
    (htarget : (e.ft = ftDir ∧ e.ino ∈ D) ∨ (e.ft ≠ ftDir ∧ e.ino ∈ F))
    (hroot : e.ino ≠ rootDirObjID)
    (htree : e.ft = ftDir → (∀ x ∈ N.dirEntries, x.ino ≠ e.ino) ∧
      ∃ rank, Ranked Entry.dir Entry.ino (Insert.insert e N.dirEntries) rank) :
    WF ⟨D, F, Insert.insert e N.entries⟩ := by
  have hnew : ∀ x : Entry, x ∈ (⟨D, F, Insert.insert e N.entries⟩ : Names).dirEntries →
      x ∈ N.dirEntries ∨ (x = e ∧ e.ft = ftDir) := by
    rintro x ⟨hx, hft⟩
    rcases Finset.mem_insert.mp hx with rfl | hx
    · exact Or.inr ⟨rfl, hft⟩
    · exact Or.inl ⟨hx, hft⟩
  refine ⟨hD h.root, hapart, ?_, injOn_insert h.index hindex, injOn_insert h.item hitem, ?_, ?_, ?_,
    ?_, ?_⟩
  · exact Finset.forall_mem_insert _ _ _ |>.mpr ⟨hok, h.ok⟩
  · exact Finset.forall_mem_insert _ _ _ |>.mpr ⟨hdir, fun x hx => hD (h.dir x hx)⟩
  · refine Finset.forall_mem_insert _ _ _ |>.mpr ⟨htarget, fun x hx => ?_⟩
    exact (h.target x hx).imp (And.imp_right fun hmem => hD hmem) (And.imp_right fun hmem => hF hmem)
  · intro x hx y hy heq
    rcases hnew x hx with hxN | ⟨rfl, hkind⟩ <;> rcases hnew y hy with hyN | ⟨rfl, hkind'⟩
    · exact h.oneParent x hxN y hyN heq
    · exact absurd heq ((htree hkind').1 x hxN)
    · exact absurd heq.symm ((htree hkind).1 y hyN)
    · rfl
  · exact Finset.forall_mem_insert _ _ _ |>.mpr ⟨hroot, h.noRoot⟩
  · by_cases hkind : e.ft = ftDir
    · obtain ⟨rank, hrank⟩ := (htree hkind).2
      refine ⟨rank, fun x hx => hrank x ?_⟩
      exact (hnew x hx).elim (Set.mem_insert_of_mem _) fun ⟨heq, _⟩ => heq ▸ Set.mem_insert _ _
    · obtain ⟨rank, hrank⟩ := h.ranked
      refine ⟨rank, fun x hx => ?_⟩
      exact (hnew x hx).elim (hrank x) fun ⟨_, hcontra⟩ => absurd hcontra hkind

theorem WF.ino_of_dirEntries (h : N.WF) : ∀ x ∈ N.dirEntries, x.ino ∈ N.dirs := by
  intro x hx
  rcases h.target x hx.1 with ⟨-, hmem⟩ | ⟨hne, -⟩
  · exact hmem
  · exact absurd hx.2 hne

/-- A new entry, to a new directory or to any other inode. -/
theorem WF.enter (h : N.WF) (hD : N.dirs ⊆ D) (hF : N.files ⊆ F) (hapart : Disjoint D F)
    (hok : e.Ok) (hindex : ∀ x ∈ N.entries, x.indexKey ≠ e.indexKey)
    (hitem : ∀ x ∈ N.entries, x.itemKey ≠ e.itemKey) (hdir : e.dir ∈ N.dirs)
    (htarget : (e.ft = ftDir ∧ e.ino ∈ D ∧ e.ino ∉ N.dirs) ∨ (e.ft ≠ ftDir ∧ e.ino ∈ F))
    (hroot : e.ino ≠ rootDirObjID) : WF ⟨D, F, Insert.insert e N.entries⟩ := by
  refine h.insert hD hF hapart hok hindex hitem (hD hdir)
    (htarget.imp_left fun ⟨hft, hmem, _⟩ => ⟨hft, hmem⟩) hroot fun hkind => ?_
  have hnot : e.ino ∉ N.dirs := by
    rcases htarget with ⟨-, -, hnot⟩ | ⟨hne, -⟩
    · exact hnot
    · exact absurd hkind hne
  refine ⟨fun x hx heq => hnot (heq ▸ h.ino_of_dirEntries x hx), ?_⟩
  -- nothing lies below a directory that was not there before
  obtain ⟨rank, hrank⟩ := h.ranked
  have hother : ∀ n ∈ N.dirs, Function.update rank e.ino (rank e.dir + 1) n = rank n := by
    intro n hn
    refine Function.update_of_ne ?_ _ _
    rintro rfl
    exact hnot hn
  refine ⟨Function.update rank e.ino (rank e.dir + 1), ?_⟩
  rintro x (rfl | hx)
  · rw [hother _ hdir, Function.update_self]
    exact Nat.lt_succ_self _
  · rw [hother _ (h.dir x hx.1), hother _ (h.ino_of_dirEntries x hx)]
    exact hrank x hx

/-- Some entries, and the inodes they need. -/
theorem WF.restrict (h : N.WF) (hroot : rootDirObjID ∈ D) (hD : D ⊆ N.dirs) (hF : F ⊆ N.files)
    (hE : E ⊆ N.entries) (hdir : ∀ x ∈ E, x.dir ∈ D)
    (hino : ∀ x ∈ E, x.ino ∈ N.dirs → x.ino ∈ D) (hino' : ∀ x ∈ E, x.ino ∈ N.files → x.ino ∈ F) :
    WF ⟨D, F, E⟩ := by
  have hsub : ∀ x : Entry, x ∈ (⟨D, F, E⟩ : Names).dirEntries → x ∈ N.dirEntries :=
    fun x hx => ⟨hE hx.1, hx.2⟩
  refine ⟨hroot, ?_, fun x hx => h.ok x (hE hx), fun x hx y hy => h.index x (hE hx) y (hE hy),
    fun x hx y hy => h.item x (hE hx) y (hE hy), hdir, ?_, ?_, fun x hx => h.noRoot x (hE hx), ?_⟩
  · exact Finset.disjoint_left.mpr fun n hn hn' => Finset.disjoint_left.mp h.apart (hD hn) (hF hn')
  · intro x hx
    exact (h.target x (hE hx)).imp (And.imp_right (hino x hx)) (And.imp_right (hino' x hx))
  · exact fun x hx y hy => h.oneParent x (hsub x hx) y (hsub y hy)
  · obtain ⟨rank, hrank⟩ := h.ranked
    exact ⟨rank, fun x hx => hrank x (hsub x hx)⟩

/-- An entry gets another directory or another name. -/
theorem WF.move (h : N.WF) (he : e ∈ N.entries) (hino : e'.ino = e.ino) (hft : e'.ft = e.ft)
    (hok : e'.Ok) (hindex : ∀ x ∈ N.entries.erase e, x.indexKey ≠ e'.indexKey)
    (hitem : ∀ x ∈ N.entries.erase e, x.itemKey ≠ e'.itemKey) (hdir : e'.dir ∈ N.dirs)
    (hbelow : e.ft = ftDir → ¬ Below Entry.dir Entry.ino N.dirEntries e.ino e'.dir) :
    WF { N with entries := Insert.insert e' (N.entries.erase e) } := by
  have hrest : WF ⟨N.dirs, N.files, N.entries.erase e⟩ :=
    h.restrict h.root subset_rfl subset_rfl (Finset.erase_subset _ _)
      (fun x hx => h.dir x (Finset.mem_of_mem_erase hx)) (fun _ _ => id) (fun _ _ => id)
  refine hrest.insert subset_rfl subset_rfl h.apart hok hindex hitem hdir ?_ ?_ fun hkind => ?_
  · rw [hino, hft]
    exact h.target e he
  · rw [hino]
    exact h.noRoot e he
  · rw [hft] at hkind
    have hmem : e ∈ N.dirEntries := ⟨he, hkind⟩
    have hsub : ∀ x, x ∈ (⟨N.dirs, N.files, N.entries.erase e⟩ : Names).dirEntries →
        x ∈ N.dirEntries \ {e} := by
      rintro x ⟨hx, hxft⟩
      obtain ⟨hne, hxN⟩ := Finset.mem_erase.mp hx
      exact ⟨⟨hxN, hxft⟩, hne⟩
    obtain ⟨rank, hrank⟩ := h.ranked
    obtain ⟨rank', hrank'⟩ := hrank.move h.oneParent hmem hino (hbelow hkind)
    refine ⟨fun x hx heq => ?_, rank', fun x hx => hrank' x ?_⟩
    · exact (hsub x hx).2 (h.oneParent x (hsub x hx).1 e hmem (heq.trans hino))
    · exact hx.imp_right (hsub x)

/-! ## 2. Sizes -/

theorem hashDirName_lt (name : Name) : hashDirName name < 2 ^ 32 :=
  Nat.xor_lt_two_pow (crc32cUpdate_lt (by decide) name) (by decide)

/-- There are no more names in a directory than hashes, so that its size fits in its field. -/
theorem WF.sizeOf_lt (h : N.WF) (dir : Nat) : N.sizeOf dir < 2 ^ 64 := by
  have hcard : (N.entries.filter fun e => e.dir = dir).card ≤ 2 ^ 32 := by
    rw [← Finset.card_range (2 ^ 32)]
    refine Finset.card_le_card_of_injOn (fun e => hashDirName e.name) ?_ ?_
    · intro e _
      simpa using hashDirName_lt e.name
    · intro x hx y hy heq
      obtain ⟨hxN, hxdir⟩ := Finset.mem_filter.mp hx
      obtain ⟨hyN, hydir⟩ := Finset.mem_filter.mp hy
      refine h.item x hxN y hyN ?_
      rw [Entry.itemKey, Entry.itemKey, hxdir, hydir, NameKey.item.injEq]
      exact ⟨rfl, heq⟩
  have hsum : ∑ e ∈ N.entries.filter (fun e => e.dir = dir), e.name.length ≤
      (N.entries.filter fun e => e.dir = dir).card * 2 ^ 16 := by
    refine (Finset.sum_le_sum (g := fun _ => 2 ^ 16) ?_).trans_eq (Finset.sum_const_nat fun _ _ => rfl)
    exact fun e he => (h.ok e (Finset.mem_filter.mp he).1).name.le
  rw [sizeOf]
  omega

end Names

end Btrfs
