/-
  Btrfs/WriteSpec.lean
  ====================
  **What `writeExtents` leaves** — a body laid out outside the pool.

  Every turn takes a range from the free list, writes a chunk into it and inserts the item
  that refers to it; the insertion itself takes and returns node blocks.  `Grown` keeps
  the accounts of such a run: the ranges taken come from the pool and are apart from each
  other, nothing outside the pool changes, and the items are in the map.
-/
import Btrfs.Effects
import Btrfs.FileData

namespace Btrfs

open Lib

/-! ## 1. The accounts of a run -/

theorem SameGeometry.extentSpan {sb sb' : Superblock} (h : SameGeometry sb sb') (typ : Nat) :
    extentSpan sb' typ = Btrfs.extentSpan sb typ := by
  funext d
  simp only [Btrfs.extentSpan, Superblock.logToPhys, Superblock.lookupChunk, h.sysChunks]

theorem SameGeometry.spansOf {sb sb' : Superblock} (h : SameGeometry sb sb') (ds : List Bytes) :
    spansOf sb' ds = Btrfs.spansOf sb ds := by
  simp only [Btrfs.spansOf, h.extentSpan]

theorem SameGeometry.fitsLeaf {sb sb' : Superblock} (h : SameGeometry sb sb') (d : Bytes) :
    fitsLeaf sb' d = Btrfs.fitsLeaf sb d := by
  simp only [Btrfs.fitsLeaf, h.nodeSize]

/-- The extents of some items. -/
def itemSpans (sb : Superblock) (items : List (Key × Bytes)) : List Span :=
  spansOf sb (items.map Prod.snd)

/-- `items` were inserted, and their extents taken out of the pool. -/
structure Grown (s : MapFs) (items : List (Key × Bytes)) (s' : MapFs) : Prop where
  ok : SpaceOk s'
  geometry : SameGeometry s.sb s'.sb
  starved : s.starved = true → s'.starved = true
  pool_eq : s'.pool = s.pool \ bytesOf (itemSpans s.sb items)
  taken : bytesOf (itemSpans s.sb items) ⊆ s.pool
  scattered : Scattered (itemSpans s.sb items)
  cells : ∀ p, p ∉ s.pool → p ∉ superBytes → s'.cell p = s.cell p
  records_eq : s'.records = s.records.insertAll items
  fits : ∀ e ∈ items, fitsLeaf s.sb e.2 = true

variable {s s' s₁ : MapFs} {items items' : List (Key × Bytes)}

theorem itemSpans_append (sb : Superblock) (items items' : List (Key × Bytes)) :
    itemSpans sb (items ++ items') = itemSpans sb items ++ itemSpans sb items' := by
  simp [itemSpans, spansOf]

theorem Grown.refl (hs : SpaceOk s) : Grown s [] s :=
  ⟨hs, SameGeometry.refl _, id, by simp [itemSpans, spansOf], by simp [itemSpans, spansOf],
    by simp [itemSpans, spansOf], fun _ _ _ => rfl, rfl, nofun⟩

theorem Grown.trans (h : Grown s items s₁) (h' : Grown s₁ items' s') :
    Grown s (items ++ items') s' := by
  have hspans : itemSpans s₁.sb items' = itemSpans s.sb items' := h.geometry.spansOf _
  have htaken : bytesOf (itemSpans s.sb items') ⊆ s.pool \ bytesOf (itemSpans s.sb items) := by
    rw [← hspans, ← h.pool_eq]
    exact h'.taken
  refine ⟨h'.ok, h.geometry.trans h'.geometry, fun hst => h'.starved (h.starved hst), ?_, ?_, ?_,
    ?_, ?_, ?_⟩
  · rw [h'.pool_eq, h.pool_eq, hspans, itemSpans_append, bytesOf_append, Set.sdiff_sdiff]
  · rw [itemSpans_append, bytesOf_append]
    exact Set.union_subset h.taken (htaken.trans Set.sdiff_subset)
  · rw [itemSpans_append, scattered_append]
    refine ⟨h.scattered, hspans ▸ h'.scattered, ?_⟩
    exact (Set.disjoint_sdiff_left.mono_left htaken).symm
  · intro p hp hsuper
    rw [h'.cells p (by rw [h.pool_eq]; exact fun hmem => hp hmem.1) hsuper, h.cells p hp hsuper]
  · rw [h'.records_eq, h.records_eq, Records.insertAll_append]
  · intro e he
    rcases List.mem_append.mp he with he | he
    · exact h.fits e he
    · exact (h.geometry.fitsLeaf _).symm.trans (h'.fits e he)

/-! ## 2. One item -/

theorem mapInsert_ok {k : Key} {d : Bytes} (hs : SpaceOk s) (hrun : mapInsert k d s = .ok () s') :
    Churned s s' ∧ s'.records = s.records.insert k d ∧ fitsLeaf s.sb d = true :=
  ⟨(mapOp_ok hs hrun).1, (insert_effect hrun).2⟩

/-- An item without an extent takes nothing out of the pool. -/
theorem grown_insert {k : Key} {d : Bytes} (hs : SpaceOk s)
    (hnone : extentSpan s.sb extentDataRegular d = none) (hrun : mapInsert k d s = .ok () s') :
    Grown s [(k, d)] s' := by
  obtain ⟨hch, hrec, hfit⟩ := mapInsert_ok hs hrun
  have hspans : itemSpans s.sb [(k, d)] = [] := by simp [itemSpans, spansOf, hnone]
  refine ⟨hch.ok, hch.geometry, hch.starved, ?_, ?_, ?_, hch.cells, hrec, by simpa using hfit⟩
  · rw [hspans, bytesOf_nil, Set.sdiff_empty, hch.pool_eq]
  · rw [hspans, bytesOf_nil]
    exact Set.empty_subset _
  · rw [hspans]
    exact scattered_nil

/-- A chunk is stored, and its item inserted. -/
theorem grown_store {k : Key} {phys allocated : Nat} {chunk : Bytes} (generation : Nat)
    (hs : SpaceOk s) (hsuper : Disjoint superBytes s.pool) (hpos : 0 < allocated)
    (hle : chunk.length ≤ allocated) (hstored : Stored s phys allocated chunk s₁)
    (hrun : mapInsert k
      (encodeExtentData (s.sb.physToLog phys) allocated 0 chunk.length generation) s₁ = .ok () s') :
    Grown s [(k, encodeExtentData (s.sb.physToLog phys) allocated 0 chunk.length generation)] s' ∧
      Piece s'.sb s'.vol.dev
        (encodeExtentData (s.sb.physToLog phys) allocated 0 chunk.length generation) chunk := by
  obtain ⟨hch, hrec, hfit⟩ := mapInsert_ok hstored.ok hrun
  obtain ⟨hphys, hne, hlt, hmax⟩ := hstored.physAddr hs hpos
  have hspan := extentSpan_placed chunk.length generation hne hlt hmax hphys
  have hspans : itemSpans s.sb [(k, encodeExtentData (s.sb.physToLog phys) allocated 0
      chunk.length generation)] = [⟨phys, allocated⟩] := by
    simp [itemSpans, spansOf, hspan]
  have hgeo : SameGeometry s.sb s'.sb := by
    rw [← hstored.sb_eq]
    exact hch.geometry
  have hin : (⟨phys, allocated⟩ : Span).bytes ⊆ s.pool :=
    fun p hp => Or.inl (hstored.was_free hp)
  refine ⟨⟨hch.ok, hgeo, fun hst => hch.starved (hstored.starved_eq ▸ hst), ?_, ?_, ?_, ?_, ?_, ?_⟩,
    ?_⟩
  · rw [hspans, bytesOf_cons, bytesOf_nil, Set.union_empty, hch.pool_eq, hstored.pool_eq]
  · rw [hspans, bytesOf_cons, bytesOf_nil, Set.union_empty]
    exact hin
  · rw [hspans, scattered_cons]
    exact ⟨by simp, scattered_nil⟩
  · intro p hp hsup
    rw [hch.cells p (by rw [hstored.pool_eq]; exact fun hmem => hp hmem.1) hsup,
      hstored.cells p fun hmem => hp (hin hmem)]
  · rw [hrec, hstored.records_eq]
    rfl
  · rw [hstored.sb_eq] at hfit
    simpa using hfit
  · refine Piece.placed generation hne hlt hle hmax ((hgeo.physAddr _).trans hphys) ?_
    refine WriteLog.readCells_eq_some.mpr ⟨rfl, ?_⟩
    intro i hi
    have hmem : phys + i ∈ (⟨phys, allocated⟩ : Span).bytes :=
      Span.mem_bytes.mpr ⟨Nat.le_add_right _ _, by simp only; omega⟩
    -- the traffic of the insertion stays away from what was just taken
    have hkept := hch.cells (phys + i) (by rw [hstored.pool_eq]; exact fun h => h.2 hmem)
      fun h => Set.disjoint_left.mp hsuper h (hin hmem)
    exact hkept.trans (hstored.chunk_cells i hi)

/-! ## 3. The greedy loop -/

/-- Items laid out first stay as they are while more are added. -/
theorem Grown.laid {sb : Superblock} {ino off : Nat} {data : Bytes} (h : Grown s₁ items' s')
    (hgeo : SameGeometry sb s₁.sb) (hlaid : Laid s₁.sb s₁.vol.dev ino off items data)
    (hout : Disjoint (bytesOf (itemSpans sb items)) s₁.pool)
    (hsuper : Disjoint (bytesOf (itemSpans sb items)) superBytes) :
    Laid s'.sb s'.vol.dev ino off items data := by
  refine hlaid.mono (fun a => h.geometry.physAddr a) ?_
  intro e he x hx p hp
  have hmem : p ∈ bytesOf (itemSpans sb items) := by
    refine ⟨x, ?_, hp⟩
    rw [itemSpans, spansOf, List.mem_filterMap]
    exact ⟨e.2, List.mem_map_of_mem he, hgeo.extentSpan _ ▸ hx⟩
  exact h.cells p (Set.disjoint_left.mp hout hmem) (Set.disjoint_left.mp hsuper hmem)

theorem allocDataBytes_stored {size phys allocated : Nat} {chunk : Bytes} (hs : SpaceOk s)
    (hlen : chunk.length = size) (hpos : 0 < size)
    (hrun : allocDataBytes mapBackend size s = .ok (phys, allocated) s₁) :
    0 < allocated ∧ chunk.length ≤ allocated ∧
      Stored s phys allocated chunk (writeData mapBackend phys chunk s₁) := by
  simp only [allocDataBytes, mapBackend] at hrun
  cases hal : s.vol.sm.allocDataBytes size s.sb.sectorSize with
  | error e => rw [hal] at hrun; cases hrun
  | ok r =>
    obtain ⟨⟨p, need⟩, sm⟩ := r
    rw [hal] at hrun
    cases hrun
    obtain ⟨hneed, ha⟩ := SpaceManager.allocDataBytes_ok hs.vol.noOverlap hal
    have hround : size ≤ allocated := by
      have hmod := Nat.div_add_mod (size + s.sb.sectorSize - 1) s.sb.sectorSize
      have hlt := Nat.mod_lt (size + s.sb.sectorSize - 1) hs.geometry.sectorSize_pos
      rw [hneed, Nat.mul_comm]
      omega
    exact ⟨by omega, by omega, stored_of_allocates hs ha (by omega)⟩

theorem allocDataBytesUpTo_stored {data : Bytes} {phys allocated : Nat} (hs : SpaceOk s)
    (hrun : allocDataBytesUpTo mapBackend data.length s = .ok (phys, allocated) s₁) :
    0 < allocated ∧
      Stored s phys allocated (data.take allocated)
        (writeData mapBackend phys (data.take allocated) s₁) := by
  simp only [allocDataBytesUpTo, mapBackend] at hrun
  cases hal : s.vol.sm.allocDataBytesUpTo data.length s.sb.sectorSize with
  | error e => rw [hal] at hrun; cases hrun
  | ok r =>
    obtain ⟨⟨p, taken⟩, sm⟩ := r
    rw [hal] at hrun
    cases hrun
    obtain ⟨hpos, ha⟩ := SpaceManager.allocDataBytesUpTo_ok hs.vol.noOverlap
      hs.geometry.sectorSize_pos hal
    exact ⟨hpos, stored_of_allocates hs ha (List.length_take_le _ _)⟩

theorem writeChunks_ok {ino generation : Nat} (turns off : Nat) (data : Bytes) (hs : SpaceOk s)
    (hsuper : Disjoint superBytes s.pool)
    (hrun : writeChunks mapBackend ino generation turns off data s = .ok () s') :
    ∃ items, Grown s items s' ∧ Laid s'.sb s'.vol.dev ino off items data := by
  induction turns generalizing off data s with
  | zero =>
    rw [writeChunks] at hrun
    by_cases hdata : data = []
    · subst hdata
      obtain ⟨-, rfl⟩ := run_pure.mp hrun
      exact ⟨[], Grown.refl hs, Laid.nil⟩
    · rw [if_neg (by simpa using hdata)] at hrun
      cases run_throw.mp hrun
  | succ turns ih =>
    rw [writeChunks] at hrun
    by_cases hdata : data = []
    · subst hdata
      obtain ⟨-, rfl⟩ := run_pure.mp hrun
      exact ⟨[], Grown.refl hs, Laid.nil⟩
    · rw [if_neg (by simpa using hdata)] at hrun
      obtain ⟨⟨phys, allocated⟩, s₁, halloc, hrun₁⟩ := run_bind.mp hrun
      obtain ⟨_, s₂, hwrite, hrun₂⟩ := run_bind.mp hrun₁
      obtain ⟨t, s₃, hget, hrun₃⟩ := run_bind.mp hrun₂
      obtain ⟨_, s₄, hinsert, hloop⟩ := run_bind.mp hrun₃
      obtain ⟨rfl, rfl⟩ := run_get.mp hget
      obtain rfl := run_modify.mp hwrite
      obtain ⟨hpos, hstored⟩ := allocDataBytesUpTo_stored hs (run_wrapErr.mp halloc)
      have hchunk : data.take allocated ≠ [] := by
        simp only [ne_eq, List.take_eq_nil_iff, not_or]
        exact ⟨by omega, hdata⟩
      have hsb : mapBackend.sb (writeData mapBackend phys (data.take allocated) s₁) = s.sb :=
        hstored.sb_eq
      rw [hsb] at hinsert
      obtain ⟨hone, hpiece⟩ := grown_store generation hs hsuper hpos (List.length_take_le _ _)
        hstored (run_wrapErr.mp hinsert)
      have hpool : s₄.pool ⊆ s.pool := by rw [hone.pool_eq]; exact Set.sdiff_subset
      obtain ⟨items, hrest, hlaid⟩ := ih (off + (data.take allocated).length)
        (data.drop allocated) hone.ok (hsuper.mono_right hpool) hloop
      refine ⟨_, hone.trans hrest, ?_⟩
      have hfirst := hrest.laid hone.geometry (laid_singleton ino off hpiece hchunk)
        (by rw [hone.pool_eq]; exact Set.disjoint_sdiff_right)
        (hsuper.symm.mono_left hone.taken)
      have hall := hfirst.append hlaid
      rw [List.take_append_drop] at hall
      exact hall

/-! ## 4. All shapes of a body -/

/-- The items are EXTENT_DATA items of the inode, in the order of their offsets. -/
structure FileKeys (ino : Nat) (items : List (Key × Bytes)) : Prop where
  inode : ∀ e ∈ items, inPrefix ino typeExtentData e.1 = true
  ordered : items.Pairwise fun a b => a.1 < b.1

theorem fileKeys_singleton (ino off : Nat) (d : Bytes) :
    FileKeys ino [(⟨ino, typeExtentData, off⟩, d)] := by
  refine ⟨?_, List.pairwise_singleton _ _⟩
  intro e he
  rw [List.mem_singleton.mp he]
  simp [inPrefix]

theorem Laid.keys {sb : Superblock} {dev : Device} {ino off : Nat} {data : Bytes}
    (h : Laid sb dev ino off items data) :
    FileKeys ino items ∧ ∀ e ∈ items, off ≤ e.1.offset := by
  induction h with
  | nil => exact ⟨⟨nofun, List.Pairwise.nil⟩, nofun⟩
  | @cons off d chunk rest l hpiece hne hlaid ih =>
    obtain ⟨hkeys, hoff⟩ := ih
    have hpos : 0 < chunk.length := List.length_pos_iff.mpr hne
    refine ⟨⟨?_, List.pairwise_cons.mpr ⟨?_, hkeys.ordered⟩⟩, ?_⟩
    · intro e he
      rcases List.mem_cons.mp he with rfl | he
      · simp [inPrefix]
      · exact hkeys.inode e he
    · intro e he
      have hin := hkeys.inode e he
      have hlt := hoff e he
      rw [inPrefix, decide_eq_true_eq] at hin
      rw [Key.lt_def]
      simp only
      omega
    · intro e he
      rcases List.mem_cons.mp he with rfl | he
      · exact le_rfl
      · exact (Nat.le_add_right _ _).trans (hoff e he)

theorem Laid.pieces {sb : Superblock} {dev : Device} {ino off : Nat} {data : Bytes}
    (h : Laid sb dev ino off items data) : ∀ e ∈ items, ∃ chunk, Piece sb dev e.2 chunk := by
  induction h with
  | nil => exact nofun
  | cons hpiece _ _ ih =>
    intro e he
    rcases List.mem_cons.mp he with rfl | he
    · exact ⟨_, hpiece⟩
    · exact ih e he

theorem isAllZero_iff {data : Bytes} : isAllZero data = true ↔ data = zeros data.length := by
  simp only [isAllZero, List.all_eq_true, beq_iff_eq, zeros]
  rw [List.eq_replicate_iff]
  simp

theorem placeData_ok {ino generation : Nat} {data : Bytes} (hs : SpaceOk s)
    (hsuper : Disjoint superBytes s.pool) (hdata : data ≠ [])
    (hrun : placeData mapBackend ino data generation s = .ok () s') :
    ∃ items, Grown s items s' ∧ Laid s'.sb s'.vol.dev ino 0 items data := by
  simp only [placeData] at hrun
  cases halloc : allocDataBytes mapBackend data.length s with
  | error e s₁ =>
    rw [halloc] at hrun
    obtain rfl := allocDataBytes_error halloc
    exact writeChunks_ok _ _ _ hs hsuper hrun
  | ok r s₁ =>
    obtain ⟨phys, allocated⟩ := r
    rw [halloc] at hrun
    obtain ⟨hpos, hle, hstored⟩ := allocDataBytes_stored hs rfl
      (List.length_pos_iff.mpr hdata) halloc
    have hsb : mapBackend.sb (writeData mapBackend phys data s₁) = s.sb := hstored.sb_eq
    simp only [hsb] at hrun
    obtain ⟨hgrown, hpiece⟩ := grown_store generation hs hsuper hpos hle hstored
      (run_wrapErr.mp hrun)
    exact ⟨_, hgrown, laid_singleton ino 0 hpiece hdata⟩

theorem writeExtents_ok {ino generation : Nat} {data : Bytes} (hs : SpaceOk s)
    (hsuper : Disjoint superBytes s.pool)
    (hrun : writeExtents mapBackend ino data generation s = .ok () s') :
    ∃ items, Grown s items s' ∧ FileKeys ino items ∧
      (∀ e ∈ items, ∃ chunk, Piece s'.sb s'.vol.dev e.2 chunk) ∧
      Layout s'.sb s'.vol.dev ino items data := by
  -- every body but the empty one is laid out piece by piece
  suffices hlaid : data ≠ [] →
      ∃ items, Grown s items s' ∧ Laid s'.sb s'.vol.dev ino 0 items data by
    by_cases hdata : data = []
    · subst hdata
      rw [writeExtents, if_pos List.isEmpty_nil] at hrun
      refine ⟨_, grown_insert hs (extentSpan_stored _ _ _) (run_wrapErr.mp hrun),
        fileKeys_singleton _ _ _, ?_, Layout.empty generation⟩
      intro e he
      rw [List.mem_singleton.mp he]
      exact ⟨[], Piece.stored generation⟩
    · obtain ⟨items, hgrown, hl⟩ := hlaid hdata
      exact ⟨items, hgrown, hl.keys.1, hl.pieces, Layout.laid hdata hl⟩
  intro hdata
  rw [writeExtents] at hrun
  rw [if_neg (by simpa using hdata)] at hrun
  by_cases hinline : data.length ≤ maxInlineSize
  · rw [if_pos hinline] at hrun
    exact ⟨_, grown_insert hs (extentSpan_stored _ _ _) (run_wrapErr.mp hrun),
      laid_singleton ino 0 (Piece.stored generation) hdata⟩
  rw [if_neg hinline] at hrun
  by_cases hzero : isAllZero data = true
  · rw [if_pos hzero] at hrun
    refine ⟨_, grown_insert hs (extentSpan_hole _ _ _) (run_wrapErr.mp hrun),
      laid_singleton ino 0 ?_ hdata⟩
    have hhole : Piece s'.sb s'.vol.dev _ (zeros data.length) := Piece.hole generation data.length
    rwa [← isAllZero_iff.mp hzero] at hhole
  rw [if_neg hzero] at hrun
  exact placeData_ok hs hsuper hdata hrun

end Btrfs
