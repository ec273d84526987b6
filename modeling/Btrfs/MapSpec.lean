/-
  Btrfs/MapSpec.lean
  ==================
  **What node traffic leaves alone.**

  The free bytes and the node blocks together are the pool of a filesystem.  Traffic
  moves bytes between the two and writes nothing outside the pool but the superblock
  (`Churned`); allocating file data is what takes bytes out of the pool, and freeing an
  extent is what puts them back.  File data lies outside the pool, and so survives.
-/
import Btrfs.MapFs

namespace Btrfs

open Lib

/-! ## 1. The pool -/

/-- The two superblocks agree on everything that places data. -/
structure SameGeometry (sb sb' : Superblock) : Prop where
  sysChunks : sb'.sysChunks = sb.sysChunks
  nodeSize : sb'.nodeSize = sb.nodeSize
  sectorSize : sb'.sectorSize = sb.sectorSize

theorem SameGeometry.refl (sb : Superblock) : SameGeometry sb sb := ⟨rfl, rfl, rfl⟩

theorem SameGeometry.trans {a b c : Superblock} (h : SameGeometry a b) (h' : SameGeometry b c) :
    SameGeometry a c :=
  ⟨h'.sysChunks.trans h.sysChunks, h'.nodeSize.trans h.nodeSize, h'.sectorSize.trans h.sectorSize⟩

theorem SameGeometry.physAddr {sb sb' : Superblock} (h : SameGeometry sb sb') (a : Nat) :
    sb'.physAddr a = sb.physAddr a := by
  simp only [Superblock.physAddr, Superblock.logToPhys, Superblock.lookupChunk, h.sysChunks]

/-- The sizes a superblock gives are those of a device: sectors are not empty, a node is at most
    64 KiB, and every address of a chunk fits in a signed 64-bit offset. -/
structure GeometryOk (sb : Superblock) : Prop where
  sectorSize_pos : 0 < sb.sectorSize
  nodeSize_le : sb.nodeSize ≤ maxNodeSize
  addressable : ∀ m ∈ sb.sysChunks, m.logStart + m.size ≤ 2 ^ 63 ∧ m.physStart + m.size ≤ 2 ^ 63

theorem SameGeometry.usable {sb sb' : Superblock} (h : SameGeometry sb sb') :
    usable sb' = usable sb := by
  simp only [Btrfs.usable, Superblock.physToLog, h.sysChunks]

namespace MapFs

variable (s : MapFs)

/-- The bytes of a node block at a physical offset. -/
def block (phys : Nat) : Set Nat := (⟨phys, s.sb.nodeSize⟩ : Span).bytes

def nodeBytes : Set Nat := {p | ∃ a ∈ s.nodes, p ∈ s.block a}

/-- The bytes that are free or hold nodes. -/
def pool : Set Nat := s.vol.sm.free ∪ s.nodeBytes

/-- The byte of file data at an offset. -/
def cell (p : Nat) : Option UInt8 := s.vol.dev.cellAt Payload.bytes? p

end MapFs

/-- The bytes of the superblock that a commit writes. -/
def superBytes : Set Nat := (⟨superblockOffset, sbfSize⟩ : Span).bytes

/-- Free list and node blocks are in order: disjoint usable ranges. -/
structure SpaceOk (s : MapFs) : Prop where
  geometry : GeometryOk s.sb
  vol : VolOk s.sb s.vol
  apart : s.nodes.Pairwise fun a b => Disjoint (s.block a) (s.block b)
  free_nodes : Disjoint s.vol.sm.free s.nodeBytes
  nodes_usable : s.nodeBytes ⊆ usable s.sb

/-! ## 2. Traffic -/

/-- What a state may become by traffic: the pool is the same, and so is all data outside of it. -/
structure Churned (s s' : MapFs) : Prop where
  ok : SpaceOk s'
  pool_eq : s'.pool = s.pool
  cells : ∀ p, p ∉ s.pool → p ∉ superBytes → s'.cell p = s.cell p
  geometry : SameGeometry s.sb s'.sb
  starved : s.starved = true → s'.starved = true

variable {s s' s₁ : MapFs}

theorem Churned.refl (hs : SpaceOk s) : Churned s s :=
  ⟨hs, rfl, fun _ _ _ => rfl, SameGeometry.refl _, id⟩

theorem Churned.trans (h : Churned s s₁) (h' : Churned s₁ s') : Churned s s' := by
  refine ⟨h'.ok, h'.pool_eq.trans h.pool_eq, ?_, h.geometry.trans h'.geometry,
    fun hs => h'.starved (h.starved hs)⟩
  intro p hp hsup
  rw [h'.cells p (h.pool_eq ▸ hp) hsup, h.cells p hp hsup]

theorem nodeBytes_cons (s : MapFs) (phys : Nat) (nodes : List Nat) (v : Vol) :
    ({ s with nodes := phys :: nodes, vol := v } : MapFs).nodeBytes =
      s.block phys ∪ ({ s with nodes := nodes, vol := v } : MapFs).nodeBytes := by
  ext p
  simp only [MapFs.nodeBytes, Set.mem_union, Set.mem_ofPred_eq, List.mem_cons, or_and_right,
    exists_or, exists_eq_left]
  exact Iff.rfl

/-- Take one block out of the list of blocks in use. -/
theorem nodes_eraseIdx {i phys : Nat} (hi : s.nodes[i]? = some phys) :
    s.nodes.Perm (phys :: s.nodes.eraseIdx i) := by
  obtain ⟨hlt, rfl⟩ := List.getElem?_eq_some_iff.mp hi
  exact (List.getElem_cons_eraseIdx_perm hlt).symm

theorem churned_alloc {n : Node} (hs : SpaceOk s) (hrun : (NodeEvent.alloc n).run s = .ok () s') :
    Churned s s' := by
  simp only [NodeEvent.run] at hrun
  cases hal : s.vol.sm.allocNodeBlock with
  | error e => rw [hal] at hrun; cases hrun
  | ok r =>
    obtain ⟨phys, sm⟩ := r
    rw [hal] at hrun
    cases hrun
    have ha := SpaceManager.allocNodeBlock_ok hs.vol.noOverlap hal
    rw [hs.vol.sm_nodeSize] at ha
    have hblock : s.block phys ⊆ s.vol.sm.free := ha.was_free
    have hfree : sm.free = s.vol.sm.free \ s.block phys := ha.free_eq
    have hsub : sm.free ⊆ s.vol.sm.free := by rw [hfree]; exact Set.sdiff_subset
    have hnodes := nodeBytes_cons s phys s.nodes ⟨writeNodeAtPhys s.sb s.vol.dev phys n, sm⟩
    refine ⟨⟨hs.geometry, ⟨hs.vol.nodeSize_ge, ?_, hs.vol.chunks_apart, ha.noOverlap,
      hsub.trans hs.vol.free_usable⟩, ?_, ?_, ?_⟩, ?_, ?_, SameGeometry.refl _, id⟩
    · exact ha.nodeSize_eq.trans hs.vol.sm_nodeSize
    · refine List.pairwise_cons.mpr ⟨?_, hs.apart⟩
      intro b hb
      refine hs.free_nodes.mono hblock ?_
      exact fun p hp => ⟨b, hb, hp⟩
    · rw [hnodes]
      refine Set.disjoint_union_right.mpr ⟨?_, hs.free_nodes.mono_left hsub⟩
      change Disjoint sm.free (s.block phys)
      rw [hfree]
      exact Set.disjoint_sdiff_left
    · rw [hnodes]
      exact Set.union_subset (hblock.trans hs.vol.free_usable) hs.nodes_usable
    · rw [MapFs.pool, hnodes]
      change sm.free ∪ (s.block phys ∪ s.nodeBytes) = s.pool
      rw [hfree, ← Set.union_assoc, Set.sdiff_union_of_subset hblock]
      rfl
    · intro p hp _
      refine WriteLog.cellAt_cons_of_not_mem ?_
      intro hmem
      exact hp (Or.inl (hblock hmem))

theorem churned_free {i : Nat} (hs : SpaceOk s) (hrun : (NodeEvent.free i).run s = .ok () s') :
    Churned s s' := by
  simp only [NodeEvent.run] at hrun
  cases hi : s.nodes[i]? with
  | none =>
    rw [hi] at hrun
    cases hrun
    exact Churned.refl hs
  | some phys =>
    rw [hi] at hrun
    cases hrun
    have hperm := nodes_eraseIdx hi
    have hsplit : s.nodeBytes = s.block phys ∪ {p | ∃ a ∈ s.nodes.eraseIdx i, p ∈ s.block a} := by
      ext p
      simp only [MapFs.nodeBytes, Set.mem_union, Set.mem_ofPred_eq, hperm.mem_iff, List.mem_cons,
        or_and_right, exists_or, exists_eq_left]
    have hpw : (phys :: s.nodes.eraseIdx i).Pairwise fun a b => Disjoint (s.block a) (s.block b) :=
      hperm.pairwise hs.apart fun h => Disjoint.symm h
    obtain ⟨hhead, htail⟩ := List.pairwise_cons.mp hpw
    have hdis := hs.free_nodes
    rw [hsplit, Set.disjoint_union_right] at hdis
    have husable := hs.nodes_usable
    rw [hsplit, Set.union_subset_iff] at husable
    have hfree : (s.vol.sm.freeRange phys s.sb.nodeSize).free = s.vol.sm.free ∪ s.block phys :=
      SpaceManager.free_freeRange _ _
    refine ⟨⟨hs.geometry, ⟨hs.vol.nodeSize_ge, ?_, hs.vol.chunks_apart, ?_, ?_⟩, htail, ?_, husable.2⟩, ?_, ?_,
      SameGeometry.refl _, id⟩
    · exact (SpaceManager.freeRange_nodeSize _ _).trans hs.vol.sm_nodeSize
    · exact SpaceManager.noOverlap_freeRange hs.vol.noOverlap hdis.1
    · rw [hfree]
      exact Set.union_subset hs.vol.free_usable husable.1
    · rw [hfree]
      refine Set.disjoint_union_left.mpr ⟨hdis.2, ?_⟩
      rw [Set.disjoint_right]
      rintro p ⟨a, ha, hp⟩ hp'
      exact Set.disjoint_left.mp (hhead a ha) hp' hp
    · rw [MapFs.pool, MapFs.pool, hfree, hsplit, Set.union_assoc]
      rfl
    · exact fun _ _ _ => rfl

theorem churned_rewrite {i : Nat} {n : Node} (hs : SpaceOk s)
    (hrun : (NodeEvent.rewrite i n).run s = .ok () s') : Churned s s' := by
  simp only [NodeEvent.run] at hrun
  cases hi : s.nodes[i]? with
  | none =>
    rw [hi] at hrun
    cases hrun
    exact Churned.refl hs
  | some phys =>
    rw [hi] at hrun
    cases hrun
    refine ⟨⟨hs.geometry, ⟨hs.vol.nodeSize_ge, hs.vol.sm_nodeSize, hs.vol.chunks_apart, hs.vol.noOverlap,
      hs.vol.free_usable⟩, hs.apart, hs.free_nodes, hs.nodes_usable⟩, rfl, ?_, SameGeometry.refl _,
      id⟩
    intro p hp _
    refine WriteLog.cellAt_cons_of_not_mem ?_
    intro hmem
    exact hp (Or.inr ⟨phys, List.mem_of_getElem? hi, hmem⟩)

/-- A block asked for in vain leaves a mark and nothing else. -/
theorem Churned.starve (hs : SpaceOk s) : Churned s { s with starved := true } :=
  ⟨⟨hs.geometry, hs.vol, hs.apart, hs.free_nodes, hs.nodes_usable⟩, rfl, fun _ _ _ => rfl,
    SameGeometry.refl _, fun _ => rfl⟩

theorem event_error {ev : NodeEvent} {e : Err} (hrun : ev.run s = .error e s') :
    s' = { s with starved := true } := by
  cases ev with
  | alloc n =>
    simp only [NodeEvent.run] at hrun
    cases hal : s.vol.sm.allocNodeBlock with
    | error e => rw [hal] at hrun; cases hrun; rfl
    | ok r => rw [hal] at hrun; cases hrun
  | free i =>
    simp only [NodeEvent.run] at hrun
    cases hi : s.nodes[i]? with
    | none => rw [hi] at hrun; cases hrun
    | some phys => rw [hi] at hrun; cases hrun
  | rewrite i n =>
    simp only [NodeEvent.run] at hrun
    cases hi : s.nodes[i]? with
    | none => rw [hi] at hrun; cases hrun
    | some phys => rw [hi] at hrun; cases hrun

theorem churned_event (ev : NodeEvent) (hs : SpaceOk s) : Churned s (final (ev.run s)) := by
  cases hrun : ev.run s with
  | error e s' =>
    rw [final_error, event_error hrun]
    exact Churned.starve hs
  | ok u s' =>
    rw [final_ok]
    cases ev with
    | alloc n => exact churned_alloc hs hrun
    | free i => exact churned_free hs hrun
    | rewrite i n => exact churned_rewrite hs hrun

theorem event_records (ev : NodeEvent) (s : MapFs) : (final (ev.run s)).records = s.records := by
  cases ev with
  | alloc n =>
    simp only [NodeEvent.run]
    cases s.vol.sm.allocNodeBlock <;> rfl
  | free i =>
    simp only [NodeEvent.run]
    cases s.nodes[i]? <;> rfl
  | rewrite i n =>
    simp only [NodeEvent.run]
    cases s.nodes[i]? <;> rfl

/-- The events of an operation, one after the other. -/
theorem churned_events (l : List NodeEvent) (hs : SpaceOk s) :
    Churned s (final (l.forM NodeEvent.run s)) ∧
      (final (l.forM NodeEvent.run s)).records = s.records ∧
      (succeeded (l.forM NodeEvent.run s) = false →
        (final (l.forM NodeEvent.run s)).starved = true) := by
  induction l generalizing s with
  | nil => exact ⟨Churned.refl hs, rfl, nofun⟩
  | cons ev l ih =>
    have hfirst := churned_event ev hs
    have hrecords := event_records ev s
    change Churned s (final ((ev.run >>= fun _ => l.forM NodeEvent.run) s)) ∧
      (final ((ev.run >>= fun _ => l.forM NodeEvent.run) s)).records = s.records ∧
      (succeeded ((ev.run >>= fun _ => l.forM NodeEvent.run) s) = false →
        (final ((ev.run >>= fun _ => l.forM NodeEvent.run) s)).starved = true)
    cases hrun : ev.run s with
    | error e s₁ =>
      rw [hrun, final_error] at hfirst hrecords
      rw [bind_of_error hrun]
      refine ⟨hfirst, hrecords, fun _ => ?_⟩
      rw [final_error, event_error hrun]
    | ok u s₁ =>
      rw [hrun, final_ok] at hfirst hrecords
      rw [bind_of_ok hrun]
      obtain ⟨hrest, hrec, hstarved⟩ := ih hfirst.ok
      exact ⟨hfirst.trans hrest, hrec.trans hrecords, hstarved⟩

theorem churned_traffic (hs : SpaceOk s) :
    Churned s (final (traffic s)) ∧ (final (traffic s)).records = s.records ∧
      (succeeded (traffic s) = false → (final (traffic s)).starved = true) := by
  have hs₁ : SpaceOk { s with script := s.script.tail } :=
    ⟨hs.geometry, hs.vol, hs.apart, hs.free_nodes, hs.nodes_usable⟩
  obtain ⟨h, hrec, hstarved⟩ := churned_events (s.script.head?.getD []) hs₁
  exact ⟨⟨h.ok, h.pool_eq, h.cells, h.geometry, h.starved⟩, hrec, hstarved⟩

/-! ## 3. Tree operations and commit -/

/-- New records for a state change none of its space. -/
theorem Churned.setRecords (h : Churned s s') (r : Records Key Bytes) :
    Churned s { s' with records := r } :=
  ⟨⟨h.ok.geometry, h.ok.vol, h.ok.apart, h.ok.free_nodes, h.ok.nodes_usable⟩, h.pool_eq, h.cells,
    h.geometry, h.starved⟩

variable {f : Superblock → Records Key Bytes → Except Err (Records Key Bytes)}

theorem mapOp_ok (hs : SpaceOk s) (hrun : mapOp f s = .ok () s') :
    Churned s s' ∧ f s.sb s.records = .ok s'.records := by
  simp only [mapOp] at hrun
  obtain ⟨hch, -, -⟩ := churned_traffic hs
  cases hf : f s.sb s.records with
  | error e => rw [hf] at hrun; cases hrun
  | ok r =>
    rw [hf] at hrun
    cases ht : traffic s with
    | error e s₁ => rw [ht] at hrun; cases hrun
    | ok u s₁ =>
      rw [ht] at hrun hch
      cases hrun
      exact ⟨hch.setRecords r, rfl⟩

/-- An operation that fails does so for want of a block, or before it has done anything. -/
theorem mapOp_error {e : Err} (hs : SpaceOk s) (hrun : mapOp f s = .error e s') :
    Churned s s' ∧ s'.records = s.records ∧
      (s'.starved = true ∨ s' = s ∧ f s.sb s.records = .error e) := by
  simp only [mapOp] at hrun
  obtain ⟨hch, hrec, hst⟩ := churned_traffic hs
  cases hf : f s.sb s.records with
  | error e =>
    rw [hf] at hrun
    cases hrun
    exact ⟨Churned.refl hs, rfl, Or.inr ⟨rfl, rfl⟩⟩
  | ok r =>
    rw [hf] at hrun
    cases ht : traffic s with
    | ok u s₁ => rw [ht] at hrun; cases hrun
    | error e s₁ =>
      rw [ht] at hrun hch hrec hst
      cases hrun
      exact ⟨hch, hrec, Or.inl (hst rfl)⟩

/-- A commit writes the superblock over the traffic of the other trees. -/
theorem churned_commit (hs : SpaceOk s) :
    Churned s (final (mapCommit s)) ∧ (final (mapCommit s)).records = s.records ∧
      (succeeded (mapCommit s) = false → (final (mapCommit s)).starved = true) := by
  obtain ⟨hch, hrec, hst⟩ := churned_traffic hs
  simp only [mapCommit]
  cases ht : traffic s with
  | error e s₁ =>
    rw [ht] at hch hrec hst
    exact ⟨hch, hrec, hst⟩
  | ok u s₁ =>
    rw [ht] at hch hrec
    rw [final_ok] at hch hrec
    refine ⟨hch.trans ⟨⟨?_, ?_, hch.ok.apart, hch.ok.free_nodes, hch.ok.nodes_usable⟩, rfl, ?_,
      ⟨rfl, rfl, rfl⟩, id⟩, hrec, nofun⟩
    · have hg := hch.ok.geometry
      exact ⟨hg.sectorSize_pos, hg.nodeSize_le, hg.addressable⟩
    · exact ⟨hch.ok.vol.nodeSize_ge, hch.ok.vol.sm_nodeSize, hch.ok.vol.chunks_apart,
        hch.ok.vol.noOverlap, hch.ok.vol.free_usable⟩
    · intro p _ hsuper
      exact WriteLog.cellAt_cons_of_not_mem hsuper

/-! ## 4. File data -/

/-- `n` bytes at `phys` were taken out of the pool and `chunk` was written to the front of them. -/
structure Stored (s : MapFs) (phys n : Nat) (chunk : Bytes) (s' : MapFs) : Prop where
  ok : SpaceOk s'
  was_free : (⟨phys, n⟩ : Span).bytes ⊆ s.vol.sm.free
  pool_eq : s'.pool = s.pool \ (⟨phys, n⟩ : Span).bytes
  cells : ∀ p, p ∉ (⟨phys, n⟩ : Span).bytes → s'.cell p = s.cell p
  chunk_cells : ∀ i < chunk.length, s'.cell (phys + i) = chunk[i]?
  sb_eq : s'.sb = s.sb
  records_eq : s'.records = s.records
  starved_eq : s'.starved = s.starved

theorem stored_of_allocates {phys n : Nat} {chunk : Bytes} {sm : SpaceManager} (hs : SpaceOk s)
    (ha : s.vol.sm.Allocates phys n sm) (hle : chunk.length ≤ n) :
    Stored s phys n chunk { s with vol := ⟨writeAt s.vol.dev phys chunk, sm⟩ } := by
  have hsub : sm.free ⊆ s.vol.sm.free := by rw [ha.free_eq]; exact Set.sdiff_subset
  refine ⟨⟨hs.geometry, ⟨hs.vol.nodeSize_ge, ha.nodeSize_eq.trans hs.vol.sm_nodeSize,
    hs.vol.chunks_apart, ha.noOverlap, hsub.trans hs.vol.free_usable⟩, hs.apart,
    hs.free_nodes.mono_left hsub, hs.nodes_usable⟩, ha.was_free, ?_, ?_, ?_, rfl, rfl, rfl⟩
  · have hnodes : s.nodeBytes \ (⟨phys, n⟩ : Span).bytes = s.nodeBytes :=
      (hs.free_nodes.symm.mono_right ha.was_free).sdiff_eq_left
    change sm.free ∪ s.nodeBytes = s.pool \ (⟨phys, n⟩ : Span).bytes
    rw [ha.free_eq, MapFs.pool, Set.union_sdiff_distrib, hnodes]
  · intro p hp
    refine WriteLog.cellAt_cons_of_not_mem ?_
    intro hmem
    rw [Write.span, Span.mem_bytes] at hmem
    rw [Span.mem_bytes] at hp
    simp only at hmem hp
    omega
  · intro i hi
    change WriteLog.cellAt Payload.bytes? (⟨phys, chunk.length, .data chunk⟩ :: s.vol.dev) (phys + i)
      = chunk[i]?
    rw [WriteLog.cellAt_cons_self (l := chunk) rfl (Nat.le_add_right _ _) (by simpa using hi),
      Nat.add_sub_cancel_left]

theorem Stored.physAddr {phys n : Nat} {chunk : Bytes} (h : Stored s phys n chunk s')
    (hs : SpaceOk s) (hn : 0 < n) :
    s.sb.physAddr (s.sb.physToLog phys) = .ok phys ∧ s.sb.physToLog phys ≠ 0 ∧
      s.sb.physToLog phys < 2 ^ 63 ∧ n ≤ 2 ^ 63 := by
  have hfirst : phys ∈ s.vol.sm.free := h.was_free (Span.mem_bytes.mpr ⟨le_rfl, by simp only; omega⟩)
  have hlast : phys + (n - 1) ∈ s.vol.sm.free :=
    h.was_free (Span.mem_bytes.mpr ⟨Nat.le_add_right _ _, by simp only; omega⟩)
  obtain ⟨⟨m, hm, hh⟩, hne⟩ := hs.vol.free_usable hfirst
  obtain ⟨⟨m', hm', hh'⟩, -⟩ := hs.vol.free_usable hlast
  refine ⟨hs.vol.physAddr_physToLog hfirst, hne, ?_, ?_⟩
  · have hsome : (s.sb.sysChunks.find? (·.holdsPhys phys)).isSome := by
      rw [List.find?_isSome]
      exact ⟨m, hm, hh⟩
    obtain ⟨c, hc⟩ := Option.isSome_iff_exists.mp hsome
    have hin := List.find?_some hc
    have hb := (hs.geometry.addressable c (List.mem_of_find?_eq_some hc)).1
    rw [Superblock.physToLog, hc]
    simp only [ChunkMapping.holdsPhys, decide_eq_true_eq] at hin
    simp only
    omega
  · have hb := (hs.geometry.addressable m' hm').2
    simp only [ChunkMapping.holdsPhys, decide_eq_true_eq] at hh'
    omega

/-! ## 5. Freeing extents -/

/-- The bytes of an extent that is in use return to the pool. -/
structure Freed (s : MapFs) (l : List Span) (s' : MapFs) : Prop where
  ok : SpaceOk s'
  pool_eq : s'.pool = s.pool ∪ bytesOf l
  cells : ∀ p, s'.cell p = s.cell p
  sb_eq : s'.sb = s.sb
  records_eq : s'.records = s.records
  starved_eq : s'.starved = s.starved

/-- The extents the regular items among some payloads refer to. -/
def spansOf (sb : Superblock) (ds : List Bytes) : List Span :=
  ds.filterMap (extentSpan sb extentDataRegular)

theorem freed_cons {e : Span} (hs : SpaceOk s) (hfree : Disjoint e.bytes s.pool)
    (husable : e.bytes ⊆ usable s.sb) :
    Freed s [e] { s with vol := { s.vol with sm := s.vol.sm.freeRange e.start e.size } } := by
  rw [MapFs.pool, Set.disjoint_union_right] at hfree
  have heq : (s.vol.sm.freeRange e.start e.size).free = s.vol.sm.free ∪ e.bytes :=
    SpaceManager.free_freeRange _ _
  refine ⟨⟨hs.geometry, ⟨hs.vol.nodeSize_ge, ?_, hs.vol.chunks_apart, ?_, ?_⟩, hs.apart, ?_,
    hs.nodes_usable⟩, ?_, fun _ => rfl, rfl, rfl, rfl⟩
  · exact (SpaceManager.freeRange_nodeSize _ _).trans hs.vol.sm_nodeSize
  · exact SpaceManager.noOverlap_freeRange hs.vol.noOverlap hfree.1.symm
  · rw [heq]
    exact Set.union_subset hs.vol.free_usable husable
  · rw [heq]
    exact Set.disjoint_union_left.mpr ⟨hs.free_nodes, hfree.2⟩
  · change (s.vol.sm.freeRange e.start e.size).free ∪ s.nodeBytes = s.pool ∪ bytesOf [e]
    rw [heq, MapFs.pool, bytesOf_cons, bytesOf_nil, Set.union_empty, Set.union_right_comm]

/-- Return the extents of some items, one after the other. -/
theorem freed_foldl (ds : List Bytes) (hs : SpaceOk s) (hscattered : Scattered (spansOf s.sb ds))
    (hfree : ∀ e ∈ spansOf s.sb ds, Disjoint e.bytes s.pool)
    (husable : ∀ e ∈ spansOf s.sb ds, e.bytes ⊆ usable s.sb) :
    Freed s (spansOf s.sb ds) (ds.foldl (freeExtent mapBackend) s) := by
  induction ds generalizing s with
  | nil =>
    refine ⟨hs, ?_, fun _ => rfl, rfl, rfl, rfl⟩
    simp [spansOf]
  | cons d ds ih =>
    rw [List.foldl_cons]
    cases hd : extentSpan s.sb extentDataRegular d with
    | none =>
      have hspans : spansOf s.sb (d :: ds) = spansOf s.sb ds := by simp [spansOf, hd]
      rw [hspans] at hscattered hfree husable ⊢
      have hstep : freeExtent mapBackend s d = s := by
        simp only [freeExtent, mapBackend, hd]
      rw [hstep]
      exact ih hs hscattered hfree husable
    | some e =>
      have hspans : spansOf s.sb (d :: ds) = e :: spansOf s.sb ds := by simp [spansOf, hd]
      rw [hspans] at hscattered hfree husable ⊢
      rw [scattered_cons] at hscattered
      have hfirst := freed_cons hs (hfree e List.mem_cons_self) (husable e List.mem_cons_self)
      have hstep : freeExtent mapBackend s d =
          { s with vol := { s.vol with sm := s.vol.sm.freeRange e.start e.size } } := by
        simp only [freeExtent, mapBackend, hd]
      rw [hstep]
      have hrest := ih hfirst.ok hscattered.2 (fun e' he' => by
        rw [hfirst.pool_eq, bytesOf_cons, bytesOf_nil, Set.union_empty, Set.disjoint_union_right]
        refine ⟨hfree e' (List.mem_cons_of_mem _ he'), ?_⟩
        exact (hscattered.1.mono_right (bytes_subset_bytesOf he')).symm)
        (fun e' he' => husable e' (List.mem_cons_of_mem _ he'))
      refine ⟨hrest.ok, ?_, hrest.cells, hrest.sb_eq, hrest.records_eq, hrest.starved_eq⟩
      rw [hrest.pool_eq, hfirst.pool_eq, bytesOf_cons, bytesOf_cons, bytesOf_nil, Set.union_empty,
        Set.union_assoc]

end Btrfs
