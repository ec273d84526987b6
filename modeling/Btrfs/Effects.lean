/-
  Btrfs/Effects.lean
  ==================
  **What the steps of a call do to the records** — whatever the space below.

  A step that succeeds is an operation on the records; traffic does not show, and neither
  does a commit.  The lemmas are stated without a word about the free list, so that they
  serve wherever only the items matter.
-/
import Btrfs.Inversion
import Btrfs.Lookups
import Btrfs.MapSpec

namespace Btrfs

open Lib

variable {s s' : MapFs}

/-! ## 1. Tree operations -/

theorem event_sb (ev : NodeEvent) (s : MapFs) : (final (ev.run s)).sb = s.sb := by
  cases ev with
  | alloc n =>
    simp only [NodeEvent.run]
    cases s.vol.sm.allocNodeBlock <;> rfl
  | free i =>
    simp only [NodeEvent.run]
    cases s.nodes[i]? <;> rfl
  | rewrite i n =>
    simp only [NodeEvent.run]
    cases s.nodes[i]? <;> rfl

theorem events_frame (l : List NodeEvent) (s : MapFs) :
    (final (l.forM NodeEvent.run s)).sb = s.sb ∧
      (final (l.forM NodeEvent.run s)).records = s.records := by
  induction l generalizing s with
  | nil => exact ⟨rfl, rfl⟩
  | cons ev l ih =>
    have hsb := event_sb ev s
    have hrec := event_records ev s
    change (final ((ev.run >>= fun _ => l.forM NodeEvent.run) s)).sb = s.sb ∧
      (final ((ev.run >>= fun _ => l.forM NodeEvent.run) s)).records = s.records
    cases hrun : ev.run s with
    | error e s₁ =>
      rw [hrun] at hsb hrec
      rw [bind_of_error hrun]
      exact ⟨hsb, hrec⟩
    | ok u s₁ =>
      rw [hrun] at hsb hrec
      rw [bind_of_ok hrun]
      exact ⟨(ih s₁).1.trans hsb, (ih s₁).2.trans hrec⟩

theorem traffic_frame (s : MapFs) :
    (final (traffic s)).sb = s.sb ∧ (final (traffic s)).records = s.records :=
  events_frame _ { s with script := s.script.tail }

theorem ignoreError_eq (x : FileM MapFs Unit) (s : MapFs) :
    ignoreError x s = .ok () (final (x s)) := by
  simp only [ignoreError]
  cases x s <;> rfl

section ops

variable {f : Superblock → Records Key Bytes → Except Err (Records Key Bytes)} {k : Key} {d : Bytes}

theorem mapOp_effect (hrun : mapOp f s = .ok () s') :
    s'.sb = s.sb ∧ f s.sb s.records = .ok s'.records := by
  simp only [mapOp] at hrun
  have hframe := traffic_frame s
  cases hf : f s.sb s.records with
  | error e => rw [hf] at hrun; cases hrun
  | ok r =>
    rw [hf] at hrun
    cases ht : traffic s with
    | error e s₁ => rw [ht] at hrun; cases hrun
    | ok u s₁ =>
      rw [ht] at hrun hframe
      cases hrun
      exact ⟨hframe.1, rfl⟩

theorem mapOp_error_effect {e : Err} (hrun : mapOp f s = .error e s') :
    s'.sb = s.sb ∧ s'.records = s.records := by
  simp only [mapOp] at hrun
  have hframe := traffic_frame s
  cases hf : f s.sb s.records with
  | error e =>
    rw [hf] at hrun
    cases hrun
    exact ⟨rfl, rfl⟩
  | ok r =>
    rw [hf] at hrun
    cases ht : traffic s with
    | ok u s₁ => rw [ht] at hrun; cases hrun
    | error e s₁ =>
      rw [ht] at hrun hframe
      cases hrun
      exact hframe

theorem insert_effect (hrun : mapBackend.cowInsert k d s = .ok () s') :
    s'.sb = s.sb ∧ s'.records = s.records.insert k d ∧ fitsLeaf s.sb d = true := by
  have hop : mapInsert k d s = .ok () s' := hrun
  obtain ⟨hsb, hf⟩ := mapOp_effect hop
  by_cases hfit : fitsLeaf s.sb d = true
  · rw [if_pos hfit, Except.ok.injEq] at hf
    exact ⟨hsb, hf.symm, hfit⟩
  · rw [if_neg hfit] at hf
    cases hf

theorem update_effect (hrun : mapBackend.cowUpdate k d s = .ok () s') :
    s'.sb = s.sb ∧ s'.records = s.records.update k d ∧ fitsLeaf s.sb d = true ∧
      (s.records.find? k).isSome := by
  have hop : mapUpdate k d s = .ok () s' := hrun
  obtain ⟨hsb, hf⟩ := mapOp_effect hop
  by_cases hnone : (s.records.find? k).isNone = true
  · rw [if_pos hnone] at hf
    cases hf
  rw [if_neg hnone] at hf
  by_cases hfit : fitsLeaf s.sb d = true
  · rw [if_pos hfit, Except.ok.injEq] at hf
    exact ⟨hsb, hf.symm, hfit, by simpa [Option.isSome_iff_ne_none] using hnone⟩
  · rw [if_neg hfit] at hf
    cases hf

theorem delete_effect (hrun : mapBackend.cowDelete k s = .ok () s') :
    s'.sb = s.sb ∧ s'.records = s.records.erase k ∧ (s.records.find? k).isSome := by
  have hop : mapDelete k s = .ok () s' := hrun
  obtain ⟨hsb, hf⟩ := mapOp_effect hop
  by_cases hnone : (s.records.find? k).isNone = true
  · rw [if_pos hnone] at hf
    cases hf
  · rw [if_neg hnone, Except.ok.injEq] at hf
    exact ⟨hsb, hf.symm, by simpa [Option.isSome_iff_ne_none] using hnone⟩

theorem deletePrefix_effect {objID typ : Nat}
    (hrun : mapBackend.cowDeletePrefix objID typ s = .ok () s') :
    s'.sb = s.sb ∧ s'.records = s.records.removeAll (inPrefix objID typ) := by
  have hop : mapDeletePrefix objID typ s = .ok () s' := hrun
  obtain ⟨hsb, hf⟩ := mapOp_effect hop
  rw [Except.ok.injEq] at hf
  exact ⟨hsb, hf.symm⟩

theorem erase_of_find?_eq_none {r : Records Key Bytes} (h : r.find? k = none) : r.erase k = r := by
  have hall := Records.find?_eq_none.mp h
  have hlist : (r.erase k).list = r.list := by
    refine List.eraseP_of_forall_not ?_
    intro e he
    simpa using hall e he
  cases r
  simpa [Records.erase] using hlist

/-- The allocator does not say "not found". -/
theorem events_error {l : List NodeEvent} {e : Err} (hrun : l.forM NodeEvent.run s = .error e s') :
    e.is .errNotFound = false := by
  induction l generalizing s with
  | nil => cases hrun
  | cons ev l ih =>
    change (ev.run >>= fun _ => l.forM NodeEvent.run) s = .error e s' at hrun
    rcases run_bind_error.mp hrun with hfirst | ⟨_, s₁, -, hrest⟩
    · cases ev with
      | alloc n =>
        simp only [NodeEvent.run, SpaceManager.allocNodeBlock] at hfirst
        cases hfit : firstFit s.vol.sm.nodeSize s.vol.sm.freeExts with
        | none => simp only [hfit] at hfirst; cases hfirst; rfl
        | some r => simp only [hfit] at hfirst; cases hfirst
      | free i =>
        simp only [NodeEvent.run] at hfirst
        cases hi : s.nodes[i]? <;> simp only [hi] at hfirst <;> cases hfirst
      | rewrite i n =>
        simp only [NodeEvent.run] at hfirst
        cases hi : s.nodes[i]? <;> simp only [hi] at hfirst <;> cases hfirst
    · exact ih hrest

/-- A deletion fails with "not found" when there is nothing to delete. -/
theorem delete_notFound {e : Err} (hrun : mapBackend.cowDelete k s = .error e s')
    (hnf : e.is .errNotFound = true) : s'.sb = s.sb ∧ s'.records = s.records.erase k := by
  have hop : mapDelete k s = .error e s' := hrun
  obtain ⟨hsb, hrec⟩ := mapOp_error_effect hop
  simp only [mapDelete, mapOp] at hop
  cases hk : s.records.find? k with
  | none => exact ⟨hsb, hrec.trans (erase_of_find?_eq_none hk).symm⟩
  | some d =>
    simp only [hk, Option.isNone_some, Bool.false_eq_true, if_false] at hop
    cases ht : traffic s with
    | ok u s₁ => rw [ht] at hop; cases hop
    | error e' s₁ =>
      rw [ht] at hop
      cases hop
      rw [events_error ht] at hnf
      cases hnf

/-- A deletion that may find nothing. -/
theorem tolerateDelete_effect {format : String}
    (hrun : tolerateNotFound format (mapBackend.cowDelete k) s = .ok () s') :
    s'.sb = s.sb ∧ s'.records = s.records.erase k := by
  simp only [tolerateNotFound] at hrun
  cases hx : mapBackend.cowDelete k s with
  | ok u t =>
    rw [hx] at hrun
    cases hrun
    obtain ⟨hsb, hrec, -⟩ := delete_effect hx
    exact ⟨hsb, hrec⟩
  | error e t =>
    rw [hx] at hrun
    by_cases hnf : e.is .errNotFound = true
    · simp only [hnf, if_true] at hrun
      cases hrun
      exact delete_notFound hx hnf
    · simp only [hnf, Bool.false_eq_true, if_false] at hrun
      cases hrun

theorem tolerateDeletePrefix_effect {format : String} {objID typ : Nat}
    (hrun : tolerateNotFound format (mapBackend.cowDeletePrefix objID typ) s = .ok () s') :
    s'.sb = s.sb ∧ s'.records = s.records.removeAll (inPrefix objID typ) := by
  simp only [tolerateNotFound] at hrun
  cases hx : mapBackend.cowDeletePrefix objID typ s with
  | ok u t =>
    rw [hx] at hrun
    cases hrun
    exact deletePrefix_effect hx
  | error e t =>
    rw [hx] at hrun
    by_cases hnf : e.is .errNotFound = true
    · -- a prefix deletion fails for want of a block only
      have hop : mapDeletePrefix objID typ s = .error e t := hx
      simp only [mapDeletePrefix, mapOp] at hop
      cases ht : traffic s with
      | ok u s₁ => rw [ht] at hop; cases hop
      | error e' s₁ =>
        rw [ht] at hop
        cases hop
        rw [events_error ht] at hnf
        cases hnf
    · simp only [hnf, Bool.false_eq_true, if_false] at hrun
      cases hrun

theorem commit_effect (hrun : mapBackend.updateFsTreeRoot s = .ok () s') :
    SameGeometry s.sb s'.sb ∧ s'.records = s.records := by
  have hop : mapCommit s = .ok () s' := hrun
  have hframe := traffic_frame s
  simp only [mapCommit] at hop
  cases ht : traffic s with
  | error e s₁ => rw [ht] at hop; cases hop
  | ok u s₁ =>
    rw [ht] at hop hframe
    cases hop
    have hsb : s₁.sb = s.sb := hframe.1
    exact ⟨⟨by rw [← hsb], by rw [← hsb], by rw [← hsb]⟩, hframe.2⟩

end ops

/-! ## 2. Inodes -/

section inodes

variable {ino : Nat} {readErr updateErr : String} {f : MapFs → Bytes → Bytes}

theorem editInode_effect (hrun : editInode mapBackend ino readErr updateErr f s = .ok () s') :
    s'.sb = s.sb ∧ ∃ d, s.records.find? ⟨ino, typeInodeItem, 0⟩ = some d ∧
      s'.records = s.records.update ⟨ino, typeInodeItem, 0⟩ (f s d) := by
  simp only [editInode, mapBackend, mapSearch] at hrun
  cases hd : s.records.find? ⟨ino, typeInodeItem, 0⟩ with
  | none => rw [hd] at hrun; cases hrun
  | some d =>
    rw [hd] at hrun
    obtain ⟨hsb, hrec, -, -⟩ := update_effect (run_wrapErr.mp hrun)
    exact ⟨hsb, d, rfl, hrec⟩

end inodes

/-! ## 3. Bodies -/

/-- The change of the records: items of an inode's body were inserted. -/
structure BodyAdded (ino : Nat) (s s' : MapFs) : Prop where
  sb_eq : s'.sb = s.sb
  items : ∃ items, s'.records = s.records.insertAll items ∧
    ∀ e ∈ items, inPrefix ino typeExtentData e.1 = true

namespace BodyAdded

variable {ino : Nat} {s₁ : MapFs}

theorem refl (hsb : s'.sb = s.sb) (hrec : s'.records = s.records) : BodyAdded ino s s' :=
  ⟨hsb, [], hrec, nofun⟩

theorem trans (h : BodyAdded ino s s₁) (h' : BodyAdded ino s₁ s') : BodyAdded ino s s' := by
  obtain ⟨items, hrec, hitems⟩ := h.items
  obtain ⟨items', hrec', hitems'⟩ := h'.items
  refine ⟨h'.sb_eq.trans h.sb_eq, items ++ items', ?_, ?_⟩
  · rw [hrec', hrec, Records.insertAll_append]
  · intro e he
    rcases List.mem_append.mp he with he | he
    · exact hitems e he
    · exact hitems' e he

theorem insert {off : Nat} {d : Bytes} {format : String} {args : List ErrArg}
    (hrun : step format args (mapBackend.cowInsert ⟨ino, typeExtentData, off⟩ d) s = .ok () s') :
    BodyAdded ino s s' := by
  obtain ⟨hsb, hrec, -⟩ := insert_effect (run_wrapErr.mp hrun)
  refine ⟨hsb, [(⟨ino, typeExtentData, off⟩, d)], hrec, ?_⟩
  intro e he
  rw [List.mem_singleton.mp he]
  simp [inPrefix]

end BodyAdded

theorem allocDataBytes_inv {size : Nat} {r : Nat × Nat}
    (hrun : allocDataBytes mapBackend size s = .ok r s') :
    ∃ sm, s.vol.sm.allocDataBytes size s.sb.sectorSize = .ok (r, sm) ∧
      s' = { s with vol := { s.vol with sm := sm } } := by
  simp only [allocDataBytes, mapBackend] at hrun
  cases hal : s.vol.sm.allocDataBytes size s.sb.sectorSize with
  | error e => rw [hal] at hrun; cases hrun
  | ok x =>
    rw [hal] at hrun
    cases hrun
    exact ⟨_, rfl, rfl⟩

theorem allocDataBytesUpTo_inv {size : Nat} {r : Nat × Nat}
    (hrun : allocDataBytesUpTo mapBackend size s = .ok r s') :
    ∃ sm, s.vol.sm.allocDataBytesUpTo size s.sb.sectorSize = .ok (r, sm) ∧
      s' = { s with vol := { s.vol with sm := sm } } := by
  simp only [allocDataBytesUpTo, mapBackend] at hrun
  cases hal : s.vol.sm.allocDataBytesUpTo size s.sb.sectorSize with
  | error e => rw [hal] at hrun; cases hrun
  | ok x =>
    rw [hal] at hrun
    cases hrun
    exact ⟨_, rfl, rfl⟩

theorem allocDataBytes_frame {size : Nat} {r : Nat × Nat}
    (hrun : allocDataBytes mapBackend size s = .ok r s') :
    s'.sb = s.sb ∧ s'.records = s.records := by
  obtain ⟨sm, -, rfl⟩ := allocDataBytes_inv hrun
  exact ⟨rfl, rfl⟩

theorem allocDataBytesUpTo_frame {size : Nat} {r : Nat × Nat}
    (hrun : allocDataBytesUpTo mapBackend size s = .ok r s') :
    s'.sb = s.sb ∧ s'.records = s.records := by
  obtain ⟨sm, -, rfl⟩ := allocDataBytesUpTo_inv hrun
  exact ⟨rfl, rfl⟩

theorem allocDataBytes_error {size : Nat} {e : Err}
    (hrun : allocDataBytes mapBackend size s = .error e s') : s' = s := by
  simp only [allocDataBytes] at hrun
  cases hal : (mapBackend.vol s).sm.allocDataBytes size (mapBackend.sb s).sectorSize with
  | error e => rw [hal] at hrun; cases hrun; rfl
  | ok r => rw [hal] at hrun; cases hrun

theorem allocDataBytesUpTo_error {size : Nat} {e : Err}
    (hrun : allocDataBytesUpTo mapBackend size s = .error e s') : s' = s := by
  simp only [allocDataBytesUpTo] at hrun
  cases hal : (mapBackend.vol s).sm.allocDataBytesUpTo size (mapBackend.sb s).sectorSize with
  | error e => rw [hal] at hrun; cases hrun; rfl
  | ok r => rw [hal] at hrun; cases hrun

theorem writeChunks_effect {ino generation turns off : Nat} {data : Bytes}
    (hrun : writeChunks mapBackend ino generation turns off data s = .ok () s') :
    BodyAdded ino s s' := by
  induction turns generalizing off data s with
  | zero =>
    rw [writeChunks] at hrun
    by_cases hdata : data.isEmpty = true
    · rw [if_pos hdata] at hrun
      obtain ⟨-, rfl⟩ := run_pure.mp hrun
      exact BodyAdded.refl rfl rfl
    · rw [if_neg hdata] at hrun
      cases run_throw.mp hrun
  | succ turns ih =>
    rw [writeChunks] at hrun
    by_cases hdata : data.isEmpty = true
    · rw [if_pos hdata] at hrun
      obtain ⟨-, rfl⟩ := run_pure.mp hrun
      exact BodyAdded.refl rfl rfl
    · rw [if_neg hdata] at hrun
      obtain ⟨⟨phys, allocated⟩, s₁, halloc, hrun₁⟩ := run_bind.mp hrun
      obtain ⟨_, s₂, hwrite, hrun₂⟩ := run_bind.mp hrun₁
      obtain rfl := run_modify.mp hwrite
      have hrun₃ := run_get_bind.mp hrun₂
      obtain ⟨_, s₄, hinsert, hloop⟩ := run_bind.mp hrun₃
      obtain ⟨hsb, hrec⟩ := allocDataBytesUpTo_frame (run_wrapErr.mp halloc)
      have hstored : BodyAdded ino s (writeData mapBackend phys (data.take allocated) s₁) :=
        BodyAdded.refl hsb hrec
      exact (hstored.trans (BodyAdded.insert hinsert)).trans (ih hloop)

theorem writeExtents_effect {ino generation : Nat} {data : Bytes}
    (hrun : writeExtents mapBackend ino data generation s = .ok () s') : BodyAdded ino s s' := by
  rw [writeExtents] at hrun
  split_ifs at hrun
  · exact BodyAdded.insert hrun
  · exact BodyAdded.insert hrun
  · exact BodyAdded.insert hrun
  · simp only [placeData] at hrun
    cases halloc : allocDataBytes mapBackend data.length s with
    | error e s₁ =>
      rw [halloc] at hrun
      obtain rfl := allocDataBytes_error halloc
      exact writeChunks_effect hrun
    | ok r s₁ =>
      obtain ⟨phys, size⟩ := r
      rw [halloc] at hrun
      obtain ⟨hsb, hrec⟩ := allocDataBytes_frame halloc
      have hstored : BodyAdded ino s (writeData mapBackend phys data s₁) := BodyAdded.refl hsb hrec
      exact hstored.trans (BodyAdded.insert hrun)

theorem freeExtent_frame (s : MapFs) (d : Bytes) :
    (freeExtent mapBackend s d).sb = s.sb ∧ (freeExtent mapBackend s d).records = s.records := by
  simp only [freeExtent]
  cases extentSpan (mapBackend.sb s) extentDataRegular d <;> exact ⟨rfl, rfl⟩

theorem freeInodeExtents_frame (s : MapFs) (ino : Nat) :
    (freeInodeExtents mapBackend ino s).sb = s.sb ∧
      (freeInodeExtents mapBackend ino s).records = s.records := by
  simp only [freeInodeExtents]
  cases mapBackend.collectPrefixItems s ino typeExtentData with
  | error e => exact ⟨rfl, rfl⟩
  | ok items =>
    simp only
    induction items.map Prod.snd generalizing s with
    | nil => exact ⟨rfl, rfl⟩
    | cons d l ih =>
      rw [List.foldl_cons]
      obtain ⟨hsb, hrec⟩ := freeExtent_frame s d
      obtain ⟨hsb', hrec'⟩ := ih (freeExtent mapBackend s d)
      exact ⟨hsb'.trans hsb, hrec'.trans hrec⟩

end Btrfs
