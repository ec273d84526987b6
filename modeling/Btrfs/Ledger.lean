/-
  Btrfs/Ledger.lean
  =================
  **The space manager and what it has handed out** — `alloc.go`.

  A free list stands for a set of bytes, and every call on the list is an operation on the
  set (`byteLaw`).  A ledger is a free list with the ranges that are handed out and not yet
  returned; no run of calls hands out a byte twice.

  The list does not know of chunks.  Once it has been sorted and joined, a free range may
  reach from one chunk into the next, and so may what is handed out of it.  That happens in
  some run exactly when the free list of a mount has two neighbouring bytes in different
  chunks (`allocations_inChunk_iff`).
-/
import Btrfs.Mount

namespace Btrfs

open Lib

/-! ## 1. The set of free bytes -/

/-- The least multiple of the sector that holds `size` bytes. -/
structure RoundedUp (sector size n : Nat) : Prop where
  whole : sector ∣ n
  holds : size ≤ n
  least : n < size + sector

theorem roundedUp_ceil {sector : Nat} (hs : 0 < sector) (size : Nat) :
    RoundedUp sector size ((size + sector - 1) / sector * sector) := by
  have hdiv := Nat.div_add_mod (size + sector - 1) sector
  have hmod := Nat.mod_lt (size + sector - 1) hs
  rw [Nat.mul_comm] at hdiv
  exact ⟨Nat.dvd_mul_left _ _, by omega, by omega⟩

theorem RoundedUp.unique {sector size n m : Nat} (h : RoundedUp sector size n)
    (h' : RoundedUp sector size m) : n = m := by
  obtain ⟨⟨a, rfl⟩, hlo, hhi⟩ := h
  obtain ⟨⟨b, rfl⟩, hlo', hhi'⟩ := h'
  have hab : sector * a < sector * (b + 1) := by rw [Nat.mul_succ]; omega
  have hba : sector * b < sector * (a + 1) := by rw [Nat.mul_succ]; omega
  have := Nat.lt_of_mul_lt_mul_left hab
  have := Nat.lt_of_mul_lt_mul_left hba
  have heq : a = b := by omega
  rw [heq]

namespace SpaceManager

variable {sm sm' : SpaceManager}

/-- Whether `[start, start + size)` is free, by a walk over the list. -/
def rangeFree (sm : SpaceManager) (start size : Nat) : Bool :=
  if size = 0 then true else coveredFrom (start + size) start sm.freeExts

theorem free_of_rangeFree {start size : Nat} (h : sm.rangeFree start size = true) :
    (⟨start, size⟩ : Span).bytes ⊆ sm.free := by
  rw [rangeFree] at h
  split_ifs at h with hzero
  · subst hzero
    simp [Span.bytes]
  · exact subset_of_coveredFrom h

theorem rangeFree_iff (hsorted : sm.freeExts.Pairwise fun a b => a.start ≤ b.start) (start size : Nat) :
    sm.rangeFree start size = true ↔ (⟨start, size⟩ : Span).bytes ⊆ sm.free := by
  refine ⟨free_of_rangeFree, fun h => ?_⟩
  rw [rangeFree]
  split_ifs with hzero
  · rfl
  · exact (coveredFrom_iff hsorted (by omega)).mpr h

/-- Disjoint ranges, and none of them empty. -/
structure Orderly (sm : SpaceManager) : Prop where
  apart : sm.NoOverlap
  pos : ∀ e ∈ sm.freeExts, 0 < e.size

theorem Orderly.remove (h : sm.Orderly) (start size : Nat) : (sm.remove start size).Orderly := by
  refine ⟨noOverlap_remove start size h.apart, fun e he => ?_⟩
  rw [SpaceManager.remove] at he
  split_ifs at he with hzero
  · exact h.pos e he
  · obtain ⟨x, hx, hmem⟩ := List.mem_flatMap.mp he
    exact (Span.mem_minus hmem).2.2 (h.pos x hx)

/-- Taking from the front of one range leaves no empty one. -/
theorem Orderly.shrink {l m : List FreeExtent} {e : FreeExtent} {n : Nat} (h : sm.Orderly)
    (hl : sm.freeExts = l ++ e :: m) (hn : n ≤ e.size) :
    SpaceManager.Orderly { sm with freeExts := l ++ Span.shrink n e ++ m } := by
  refine ⟨(allocates_of_shrink h.apart hl hn).noOverlap, ?_⟩
  have hpos := h.pos
  simp only [hl, List.forall_mem_append, List.forall_mem_cons] at hpos ⊢
  exact ⟨⟨hpos.1, shrink_pos hn⟩, hpos.2.2⟩

theorem Orderly.freeRange {p n : Nat} (h : sm.Orderly) (hn : 0 < n)
    (hp : Disjoint sm.free (⟨p, n⟩ : Span).bytes) : Tidy (sm.freeRange p n).freeExts :=
  tidy_freeRange h.apart h.pos hp hn

theorem allocNodeBlock_full {err : Err} (h : sm.allocNodeBlock = .error err) :
    ∀ e ∈ sm.freeExts, e.size < sm.nodeSize := by
  rw [allocNodeBlock] at h
  split at h
  · cases h
  · next hfit => exact firstFit_eq_none.mp hfit

theorem allocDataBytes_full {size sector : Nat} {err : Err} (h : sm.allocDataBytes size sector = .error err) :
    ∀ e ∈ sm.freeExts, e.size < (size + sector - 1) / sector * sector := by
  simp only [allocDataBytes] at h
  split at h
  · cases h
  · next hfit => exact firstFit_eq_none.mp hfit

/-- What each call does to the set of free bytes. -/
structure ByteLaw (sm : SpaceManager) : Prop where
  remove : ∀ start size, (sm.remove start size).Orderly ∧
    (sm.remove start size).free = sm.free \ (⟨start, size⟩ : Span).bytes
  node : ∀ p sm', sm.allocNodeBlock = .ok (p, sm') → sm'.Orderly ∧ Allocates sm p sm.nodeSize sm'
  node_full : ∀ err, sm.allocNodeBlock = .error err → ∀ e ∈ sm.freeExts, e.size < sm.nodeSize
  data : ∀ size sector p n sm', 0 < sector → sm.allocDataBytes size sector = .ok ((p, n), sm') →
    RoundedUp sector size n ∧ sm'.Orderly ∧ Allocates sm p n sm'
  data_full : ∀ size sector n err, RoundedUp sector size n → sm.allocDataBytes size sector = .error err →
    ∀ e ∈ sm.freeExts, e.size < n
  upTo : ∀ maxSize sector p n sm', 0 < sector → sm.allocDataBytesUpTo maxSize sector = .ok ((p, n), sm') →
    0 < n ∧ sm'.Orderly ∧ Allocates sm p n sm'
  freeRange : ∀ p n, 0 < n → Disjoint sm.free (⟨p, n⟩ : Span).bytes →
    Tidy (sm.freeRange p n).freeExts ∧ (sm.freeRange p n).free = sm.free ∪ (⟨p, n⟩ : Span).bytes
  rangeFree : sm.freeExts.Pairwise (fun a b => a.start ≤ b.start) → ∀ start size,
    sm.rangeFree start size = true ↔ (⟨start, size⟩ : Span).bytes ⊆ sm.free

theorem Orderly.byteLaw (h : sm.Orderly) : sm.ByteLaw where
  remove start size := ⟨h.remove start size, free_remove start size⟩
  node p sm' hrun := by
    obtain ⟨l, e, m, hl, rfl, hn, rfl⟩ := allocNodeBlock_inv hrun
    exact ⟨h.shrink hl hn, allocates_of_shrink h.apart hl hn⟩
  node_full _ hrun := allocNodeBlock_full hrun
  data size sector p n sm' hsector hrun := by
    obtain ⟨rfl, l, e, m, hl, rfl, hn, rfl⟩ := allocDataBytes_inv hrun
    exact ⟨roundedUp_ceil hsector size, h.shrink hl hn, allocates_of_shrink h.apart hl hn⟩
  data_full size sector n _ hround hrun e he := by
    have hsector : 0 < sector := by
      have := hround.least
      have := hround.holds
      omega
    rw [hround.unique (roundedUp_ceil hsector size)]
    exact allocDataBytes_full hrun e he
  upTo maxSize sector p n sm' hsector hrun := by
    obtain ⟨hpos, halloc⟩ := allocDataBytesUpTo_ok h.apart hsector hrun
    obtain ⟨l, e, m, hl, rfl, rfl, -, hcase⟩ := allocDataBytesUpTo_inv hrun
    have hn : n ≤ e.size := by
      rcases hcase with ⟨rfl, -⟩ | ⟨hlt, rfl⟩
      · exact le_rfl
      · exact (Nat.div_mul_le_self _ _).trans hlt.le
    exact ⟨hpos, h.shrink hl hn, halloc⟩
  freeRange p n hn hp := ⟨h.freeRange hn hp, free_freeRange p n⟩
  rangeFree hsorted start size := rangeFree_iff hsorted start size

end SpaceManager

/-! ## 2. Ledgers -/

/-- A free list, and the ranges that are handed out. -/
structure Ledger where
  sm : SpaceManager
  out : List Span

namespace Ledger

/-- One call of the allocator that succeeds: an allocation, or the return of what was allocated. -/
inductive Call : Ledger → Ledger → Prop
  | node {sm sm' : SpaceManager} {out : List Span} {p : Nat} (h : sm.allocNodeBlock = .ok (p, sm')) :
      Call ⟨sm, out⟩ ⟨sm', ⟨p, sm.nodeSize⟩ :: out⟩
  | data {sm sm' : SpaceManager} {out : List Span} {size sector p n : Nat} (hsector : 0 < sector)
      (h : sm.allocDataBytes size sector = .ok ((p, n), sm')) : Call ⟨sm, out⟩ ⟨sm', ⟨p, n⟩ :: out⟩
  | upTo {sm sm' : SpaceManager} {out : List Span} {maxSize sector p n : Nat} (hsector : 0 < sector)
      (h : sm.allocDataBytesUpTo maxSize sector = .ok ((p, n), sm')) : Call ⟨sm, out⟩ ⟨sm', ⟨p, n⟩ :: out⟩
  | free (sm : SpaceManager) (before : List Span) (x : Span) (after : List Span) :
      Call ⟨sm, before ++ x :: after⟩ ⟨sm.freeRange x.start x.size, before ++ after⟩

/-- A call of the allocator, or one that takes a range out for good or adds one that is not in use. -/
inductive Step : Ledger → Ledger → Prop
  | call {L L' : Ledger} (h : Call L L') : Step L L'
  | remove (L : Ledger) (start size : Nat) : Step L ⟨L.sm.remove start size, L.out⟩
  | add (L : Ledger) (p n : Nat) (hfree : Disjoint L.sm.free (⟨p, n⟩ : Span).bytes)
      (hout : Disjoint (⟨p, n⟩ : Span).bytes (bytesOf L.out)) : Step L ⟨L.sm.freeRange p n, L.out⟩

/-- No byte is in two ranges, whether free or handed out. -/
structure Balanced (L : Ledger) : Prop where
  free : L.sm.NoOverlap
  out : Scattered L.out
  apart : Disjoint L.sm.free (bytesOf L.out)

theorem Balanced.alloc {sm sm' : SpaceManager} {out : List Span} {p n : Nat} (h : Balanced ⟨sm, out⟩)
    (halloc : sm.Allocates p n sm') : Balanced ⟨sm', ⟨p, n⟩ :: out⟩ := by
  have hnew : Disjoint (⟨p, n⟩ : Span).bytes (bytesOf out) := h.apart.mono_left halloc.was_free
  refine ⟨halloc.noOverlap, scattered_cons.mpr ⟨hnew, h.out⟩, ?_⟩
  simp only [bytesOf_cons, halloc.free_eq, Set.disjoint_union_right]
  exact ⟨Set.disjoint_sdiff_left, h.apart.mono_left Set.sdiff_subset⟩

theorem Balanced.call {L L' : Ledger} (h : Balanced L) (hstep : Call L L') : Balanced L' := by
  cases hstep with
  | node hrun => exact h.alloc (SpaceManager.allocNodeBlock_ok h.free hrun)
  | data _ hrun => exact h.alloc (SpaceManager.allocDataBytes_ok h.free hrun).2
  | upTo hsector hrun => exact h.alloc (SpaceManager.allocDataBytesUpTo_ok h.free hsector hrun).2
  | free sm before x after =>
    have hperm : (before ++ x :: after).Perm (x :: (before ++ after)) := List.perm_middle
    obtain ⟨hx, hrest⟩ := scattered_cons.mp (h.out.perm hperm)
    have hfree : Disjoint sm.free (bytesOf (x :: (before ++ after))) := bytesOf_perm hperm ▸ h.apart
    rw [bytesOf_cons, Set.disjoint_union_right] at hfree
    refine ⟨SpaceManager.noOverlap_freeRange h.free hfree.1, hrest, ?_⟩
    simp only [SpaceManager.free_freeRange, Set.disjoint_union_left]
    exact ⟨hfree.2, hx⟩

theorem Balanced.step {L L' : Ledger} (h : Balanced L) (hstep : Step L L') : Balanced L' := by
  cases hstep with
  | call hcall => exact h.call hcall
  | remove start size =>
    refine ⟨SpaceManager.noOverlap_remove start size h.free, h.out, ?_⟩
    simp only [SpaceManager.free_remove]
    exact h.apart.mono_left Set.sdiff_subset
  | add p n hfree hout =>
    refine ⟨SpaceManager.noOverlap_freeRange h.free hfree, h.out, ?_⟩
    simp only [SpaceManager.free_freeRange, Set.disjoint_union_left]
    exact ⟨h.apart, hout⟩

theorem Balanced.run {L L' : Ledger} (h : Balanced L) (hrun : Relation.ReflTransGen Step L L') :
    Balanced L' := by
  induction hrun with
  | refl => exact h
  | tail _ hstep ih => exact ih.step hstep

theorem balanced_fresh {sm : SpaceManager} (h : sm.NoOverlap) : Balanced ⟨sm, []⟩ :=
  ⟨h, scattered_nil, by simp⟩

end Ledger

/-- The calls are the set operations, on every list of disjoint ranges that are not empty; and over
    any run of calls no byte is handed out twice. -/
theorem spaceManager_byteSet {sm : SpaceManager} (h : sm.Orderly) :
    sm.ByteLaw ∧ ∀ L, Relation.ReflTransGen Ledger.Step ⟨sm, []⟩ L → L.sm.NoOverlap ∧
      Scattered L.out ∧ Disjoint L.sm.free (bytesOf L.out) := by
  refine ⟨h.byteLaw, fun L hrun => ?_⟩
  have hbal := (Ledger.balanced_fresh h.apart).run hrun
  exact ⟨hbal.free, hbal.out, hbal.apart⟩

/-- Two ranges with a gap between them. -/
def gapped : SpaceManager := ⟨[⟨0, 8192⟩, ⟨16384, 4096⟩], 4096⟩

theorem gapped_orderly : gapped.Orderly := by
  refine ⟨?_, by decide⟩
  rw [SpaceManager.NoOverlap, gapped, Scattered]
  refine List.pairwise_pair.mpr (Span.disjoint_of_le (Or.inl ?_))
  decide

theorem spaceManager_byteSet_gapped : gapped.ByteLaw ∧
    ∀ L, Relation.ReflTransGen Ledger.Step ⟨gapped, []⟩ L → L.sm.NoOverlap ∧
      Scattered L.out ∧ Disjoint L.sm.free (bytesOf L.out) :=
  spaceManager_byteSet gapped_orderly

/-- An empty range inside another keeps two that touch from being joined. -/
theorem freeRange_leaves_touching :
    Scattered [⟨0, 5⟩, ⟨2, 0⟩] ∧ Disjoint (bytesOf [⟨0, 5⟩, ⟨2, 0⟩]) (⟨5, 5⟩ : Span).bytes ∧
    ((⟨[⟨0, 5⟩, ⟨2, 0⟩], 4096⟩ : SpaceManager).freeRange 5 5).freeExts = [⟨0, 5⟩, ⟨2, 0⟩, ⟨5, 5⟩] ∧
    (⟨0, 5⟩ : Span).stop = (⟨5, 5⟩ : Span).start := by
  refine ⟨?_, ?_, by decide, rfl⟩
  · refine List.pairwise_pair.mpr (Set.disjoint_left.mpr fun p _ hp => ?_)
    simp only [Span.mem_bytes] at hp
    omega
  · refine Set.disjoint_left.mpr fun p hp hp' => ?_
    simp only [mem_bytesOf, List.mem_cons, List.not_mem_nil, or_false, Span.mem_bytes] at hp hp'
    obtain ⟨x, rfl | rfl, hp⟩ := hp
    · dsimp only at hp
      omega
    · dsimp only at hp
      omega

/-! ## 3. Chunks -/

variable {sb : Superblock} {dev : Device} {fsTreeRoot : Nat} {sm : SpaceManager}

/-- No two chunks share an address, logical or physical. -/
structure ChunksApart (sb : Superblock) : Prop where
  log : sb.sysChunks.Pairwise fun m m' =>
    Disjoint (⟨m.logStart, m.size⟩ : Span).bytes (⟨m'.logStart, m'.size⟩ : Span).bytes
  phys : sb.sysChunks.Pairwise fun m m' =>
    Disjoint (⟨m.physStart, m.size⟩ : Span).bytes (⟨m'.physStart, m'.size⟩ : Span).bytes

/-- The range lies in one chunk, and read from its logical address on it is the range itself. -/
def InChunk (sb : Superblock) (x : Span) : Prop :=
  (∃ m ∈ sb.sysChunks, x.bytes ⊆ (⟨m.physStart, m.size⟩ : Span).bytes) ∧
    ∀ i < x.size, sb.physAddr (sb.physToLog x.start + i) = .ok (x.start + i)

/-- Neighbouring bytes of the set lie in one chunk. -/
def Seamless (sb : Superblock) (F : Set Nat) : Prop :=
  ∀ b, b ∈ F → b + 1 ∈ F → ∃ m ∈ sb.sysChunks, m.holdsPhys b = true ∧ m.holdsPhys (b + 1) = true

theorem mem_phys {m : ChunkMapping} {p : Nat} :
    p ∈ (⟨m.physStart, m.size⟩ : Span).bytes ↔ m.holdsPhys p = true := by
  rw [Span.mem_bytes, ChunkMapping.holdsPhys, decide_eq_true_eq]

theorem mem_log {m : ChunkMapping} {a : Nat} :
    a ∈ (⟨m.logStart, m.size⟩ : Span).bytes ↔ m.holdsLog a = true := by
  rw [Span.mem_bytes, ChunkMapping.holdsLog, decide_eq_true_eq]

namespace ChunksApart

variable (h : ChunksApart sb) {m : ChunkMapping}
include h

theorem find_phys (hm : m ∈ sb.sysChunks) {p : Nat} (hp : m.holdsPhys p = true) :
    sb.sysChunks.find? (·.holdsPhys p) = some m := by
  refine find?_eq_of_pairwise (h.phys.imp fun {a b} hab => ?_) hm hp
  exact fun hboth => Set.disjoint_left.mp hab (mem_phys.mpr hboth.1) (mem_phys.mpr hboth.2)

theorem find_log (hm : m ∈ sb.sysChunks) {a : Nat} (ha : m.holdsLog a = true) :
    sb.sysChunks.find? (·.holdsLog a) = some m := by
  refine find?_eq_of_pairwise (h.log.imp fun {a b} hab => ?_) hm ha
  exact fun hboth => Set.disjoint_left.mp hab (mem_log.mpr hboth.1) (mem_log.mpr hboth.2)

/-- A chunk that holds two bytes maps them to addresses as far apart. -/
theorem physAddr_add (hm : m ∈ sb.sysChunks) {p i : Nat} (hp : m.holdsPhys p = true)
    (hi : m.holdsPhys (p + i) = true) : sb.physAddr (sb.physToLog p + i) = .ok (p + i) := by
  have hlog : sb.physToLog p = m.logStart + (p - m.physStart) := by
    simp only [Superblock.physToLog, h.find_phys hm hp]
  simp only [ChunkMapping.holdsPhys, decide_eq_true_eq] at hp hi
  have ha : m.holdsLog (m.logStart + (p - m.physStart) + i) = true := by
    simp only [ChunkMapping.holdsLog, decide_eq_true_eq]
    omega
  simp only [Superblock.physAddr, Superblock.logToPhys, Superblock.lookupChunk, hlog, h.find_log hm ha,
    Except.ok.injEq]
  omega

/-- A chunk that holds one of two neighbours holds the other, if they are in one chunk at all. -/
theorem holds_next {p : Nat} (hm : m ∈ sb.sysChunks) (hp : m.holdsPhys p = true)
    (hboth : ∃ m' ∈ sb.sysChunks, m'.holdsPhys p = true ∧ m'.holdsPhys (p + 1) = true) :
    m.holdsPhys (p + 1) = true := by
  obtain ⟨m', hm', hp', hnext⟩ := hboth
  have heq := (h.find_phys hm hp).symm.trans (h.find_phys hm' hp')
  rw [Option.some.inj heq]
  exact hnext

end ChunksApart

/-! ### What a mount leaves free -/

/-- Every free range lies within a chunk. -/
def Chunked (sb : Superblock) (l : List FreeExtent) : Prop :=
  ∀ e ∈ l, ∃ m ∈ sb.sysChunks, m.physStart ≤ e.start ∧ e.stop ≤ m.physStart + m.size

/-- The free list a mount builds is the list of chunks with ranges taken out. -/
theorem buildSpaceManager_inv {P : SpaceManager → Prop}
    (hseed : P ⟨seedExtents sb, sb.nodeSize⟩) (hremove : ∀ sm start size, P sm → P (sm.remove start size))
    (hbuild : buildSpaceManager sb dev fsTreeRoot = .ok sm) : P sm := by
  have hfold : ∀ {α : Type} (f : SpaceManager → α → SpaceManager), (∀ sm a, P sm → P (f sm a)) →
      ∀ (l : List α) (sm : SpaceManager), P sm → P (l.foldl f sm) := by
    intro α f hf l
    induction l with
    | nil => exact fun _ h => h
    | cons a l ih => exact fun sm h => ih _ (hf sm a h)
  have hnode : ∀ sm a, P sm → P (SpaceManager.reserveNode sb sm a) := by
    intro sm a h
    rw [SpaceManager.reserveNode]
    split
    · exact hremove _ _ _ h
    · exact h
  have htree : ∀ sm root, P sm → P (reserveTreeNodes sb dev sm root) := fun sm root h => hfold _ hnode _ sm h
  simp only [buildSpaceManager] at hbuild
  split at hbuild
  · next sm' hdata =>
    obtain rfl := Except.ok.inj hbuild
    rw [reserveDataExtents] at hdata
    split at hdata
    · obtain rfl := Except.ok.inj hdata
      refine hfold _ (fun sm x h => hremove sm x.start x.size h) _ _ ?_
      refine hfold _ htree _ _ (hfold _ htree _ _ ?_)
      exact hfold _ (fun sm p h => hremove sm p sb.nodeSize h) _ _ hseed
    · cases hdata
  · cases hbuild

theorem buildSpaceManager_chunked (hbuild : buildSpaceManager sb dev fsTreeRoot = .ok sm) :
    Chunked sb sm.freeExts := by
  refine buildSpaceManager_inv (P := fun sm => Chunked sb sm.freeExts) ?_ ?_ hbuild
  · intro e he
    obtain ⟨m, hm, rfl⟩ := List.mem_map.mp he
    exact ⟨m, (List.mem_filter.mp hm).1, le_rfl, le_rfl⟩
  · intro sm start size h e he
    rw [SpaceManager.remove] at he
    split_ifs at he with hzero
    · exact h e he
    · obtain ⟨x, hx, hmem⟩ := List.mem_flatMap.mp he
      obtain ⟨m, hm, hlo, hhi⟩ := h x hx
      obtain ⟨hstart, hstop, -⟩ := Span.mem_minus hmem
      exact ⟨m, hm, hlo.trans hstart, hstop.trans hhi⟩

theorem buildSpaceManager_noOverlap (h : ChunksApart sb)
    (hbuild : buildSpaceManager sb dev fsTreeRoot = .ok sm) : sm.NoOverlap := by
  refine buildSpaceManager_inv (P := SpaceManager.NoOverlap) ?_ (fun sm start size hsm => ?_) hbuild
  · exact List.pairwise_map.mpr (h.phys.sublist List.filter_sublist)
  · exact SpaceManager.noOverlap_remove start size hsm

/-! ### Runs without a seam -/

namespace Ledger

/-- All that is free or handed out was free at the start, and where something is there is a chunk. -/
structure Within (sb : Superblock) (F : Set Nat) (L : Ledger) : Prop where
  bytes : L.sm.free ∪ bytesOf L.out ⊆ F
  chunk : L.sm.freeExts ≠ [] ∨ L.out ≠ [] → sb.sysChunks ≠ []

theorem Within.alloc {F : Set Nat} {sm sm' : SpaceManager} {out : List Span} {p n : Nat}
    (h : Within sb F ⟨sm, out⟩) (hsome : sm.freeExts ≠ []) (halloc : sm.Allocates p n sm') :
    Within sb F ⟨sm', ⟨p, n⟩ :: out⟩ := by
  refine ⟨?_, fun _ => h.chunk (Or.inl hsome)⟩
  have hbytes := h.bytes
  simp only [bytesOf_cons, Set.union_subset_iff] at hbytes ⊢
  refine ⟨?_, halloc.was_free.trans hbytes.1, hbytes.2⟩
  rw [halloc.free_eq]
  exact Set.sdiff_subset.trans hbytes.1

theorem Within.call {F : Set Nat} {L L' : Ledger} (h : Within sb F L) (hbal : Balanced L)
    (hstep : Call L L') : Within sb F L' := by
  have hsome : ∀ {l e m} {sm : SpaceManager}, sm.freeExts = l ++ e :: m → sm.freeExts ≠ [] := by
    intro l e m sm hl
    simp [hl]
  cases hstep with
  | node hrun =>
    obtain ⟨l, e, m, hl, -⟩ := SpaceManager.allocNodeBlock_inv hrun
    exact h.alloc (hsome hl) (SpaceManager.allocNodeBlock_ok hbal.free hrun)
  | data _ hrun =>
    obtain ⟨-, l, e, m, hl, -⟩ := SpaceManager.allocDataBytes_inv hrun
    exact h.alloc (hsome hl) (SpaceManager.allocDataBytes_ok hbal.free hrun).2
  | upTo hsector hrun =>
    obtain ⟨l, e, m, hl, -⟩ := SpaceManager.allocDataBytesUpTo_inv hrun
    exact h.alloc (hsome hl) (SpaceManager.allocDataBytesUpTo_ok hbal.free hsector hrun).2
  | free sm before x after =>
    have hperm : (before ++ x :: after).Perm (x :: (before ++ after)) := List.perm_middle
    refine ⟨?_, fun _ => h.chunk (Or.inr (by simp))⟩
    have hbytes := h.bytes
    simp only [bytesOf_perm hperm, bytesOf_cons] at hbytes
    simp only [SpaceManager.free_freeRange, Set.union_assoc]
    exact hbytes

theorem run_within {F : Set Nat} {L L' : Ledger} (h : Within sb F L) (hbal : Balanced L)
    (hrun : Relation.ReflTransGen Call L L') : Within sb F L' ∧ Balanced L' := by
  induction hrun with
  | refl => exact ⟨h, hbal⟩
  | tail _ hstep ih => exact ⟨ih.1.call ih.2 hstep, ih.2.call hstep⟩

end Ledger

/-- A range of a set without a seam lies in the chunk of its first byte. -/
theorem inChunk_of_seamless {F : Set Nat} {x : Span} (h : ChunksApart sb) (hF : Seamless sb F)
    (hhold : ∀ p ∈ F, ∃ m ∈ sb.sysChunks, m.holdsPhys p = true) (hsome : sb.sysChunks ≠ [])
    (hx : x.bytes ⊆ F) : InChunk sb x := by
  rcases Nat.eq_zero_or_pos x.size with hzero | hpos
  · obtain ⟨m, hm⟩ := List.exists_mem_of_ne_nil _ hsome
    refine ⟨⟨m, hm, fun p hp => ?_⟩, fun i hi => by omega⟩
    rw [Span.mem_bytes] at hp
    omega
  have hmem : ∀ i < x.size, x.start + i ∈ F := fun i hi => hx (Span.mem_bytes.mpr (by omega))
  obtain ⟨m, hm, hfirst⟩ := hhold _ (hmem 0 hpos)
  rw [Nat.add_zero] at hfirst
  -- byte by byte, the next one is in the chunk of the one before
  have hall : ∀ i < x.size, m.holdsPhys (x.start + i) = true := by
    intro i
    induction i with
    | zero => exact fun _ => hfirst
    | succ i ih =>
      intro hi
      have hi' : i < x.size := by omega
      exact h.holds_next hm (ih hi') (hF _ (hmem i hi') (hmem (i + 1) hi))
  refine ⟨⟨m, hm, fun p hp => ?_⟩, fun i hi => h.physAddr_add hm hfirst (hall i hi)⟩
  rw [Span.mem_bytes] at hp
  have hp' := hall (p - x.start) (by omega)
  rw [Nat.add_sub_cancel' hp.1] at hp'
  exact mem_phys.mpr hp'

/-! ### Runs across a seam -/

namespace Ledger

/-- The members of the list can be handed out one after the other. -/
theorem run_takeAll (ns : Nat) (l rest out : List Span) :
    Relation.ReflTransGen Call ⟨⟨l ++ rest, ns⟩, out⟩ ⟨⟨rest, ns⟩, l.reverse ++ out⟩ := by
  induction l generalizing out with
  | nil => exact .refl
  | cons e l ih =>
    have halloc : (⟨e :: l ++ rest, ns⟩ : SpaceManager).allocDataBytes e.size 1 =
        .ok ((e.start, e.size), ⟨l ++ rest, ns⟩) := by
      simp [SpaceManager.allocDataBytes, firstFit, Span.shrink]
    refine .head (.data Nat.one_pos halloc) ?_
    rw [List.reverse_cons, List.append_assoc]
    exact ih (e :: out)

/-- The ranges that are not empty can be returned one after the other, and a tidy list stays tidy. -/
theorem run_giveFull : ∀ (l kept : List Span) (sm : SpaceManager), Tidy sm.freeExts → Scattered l →
    Disjoint sm.free (bytesOf l) → ∃ L, Relation.ReflTransGen Call ⟨sm, kept ++ l⟩ L ∧
      Tidy L.sm.freeExts ∧ L.sm.free = sm.free ∪ bytesOf l := by
  intro l
  induction l with
  | nil => exact fun kept sm h _ _ => ⟨_, .refl, h, by simp⟩
  | cons e l ih =>
    intro kept sm hsm hscat hdisj
    obtain ⟨he, hl⟩ := scattered_cons.mp hscat
    rw [bytesOf_cons, Set.disjoint_union_right] at hdisj
    rcases Nat.eq_zero_or_pos e.size with hzero | hpos
    · obtain ⟨L, hrun, htidy, hfree⟩ := ih (kept ++ [e]) sm hsm hl hdisj.2
      rw [List.append_assoc] at hrun
      refine ⟨L, hrun, htidy, ?_⟩
      have hempty : e.bytes = ∅ := by simp [Span.bytes, hzero]
      rw [hfree, bytesOf_cons, hempty, Set.empty_union]
    · have htidy := SpaceManager.tidy_freeRange hsm.scattered hsm.pos hdisj.1 hpos
      obtain ⟨L, hrun, htidy, hfree⟩ := ih kept (sm.freeRange e.start e.size) htidy hl (by
        rw [SpaceManager.free_freeRange, Set.disjoint_union_left]
        exact ⟨hdisj.2, he⟩)
      refine ⟨L, .head (.free sm kept e l) hrun, htidy, ?_⟩
      rw [hfree, SpaceManager.free_freeRange, bytesOf_cons, Set.union_assoc]

/-- Some run hands out a range that holds two given neighbours, if both are free. -/
theorem run_across (hsm : sm.NoOverlap) {b : Nat} (hb : b ∈ sm.free) (hnext : b + 1 ∈ sm.free) :
    ∃ L, Relation.ReflTransGen Call ⟨sm, []⟩ L ∧ ∃ x ∈ L.out, b ∈ x.bytes ∧ b + 1 ∈ x.bytes := by
  obtain ⟨l, ns⟩ := sm
  -- take everything and return what is not empty: the list is tidy then
  have htake := run_takeAll ns l [] []
  rw [List.append_nil, List.append_nil] at htake
  obtain ⟨⟨⟨l', ns'⟩, out⟩, hgive, htidy, hfree⟩ := run_giveFull l.reverse [] ⟨[], ns⟩
    ⟨List.Pairwise.nil, nofun⟩ (Scattered.perm hsm (List.reverse_perm l).symm) (by simp [SpaceManager.free])
  have hsame : bytesOf l' = bytesOf l := by
    have h : bytesOf l' = bytesOf [] ∪ bytesOf l.reverse := hfree
    rw [h, bytesOf_perm (List.reverse_perm l), bytesOf_nil, Set.empty_union]
  -- neighbours are in one member of a tidy list
  obtain ⟨e, he, hbe⟩ : b ∈ bytesOf l' := hsame ▸ hb
  obtain ⟨e', he', hbe'⟩ : b + 1 ∈ bytesOf l' := hsame ▸ hnext
  have heq : e = e' := by
    by_contra hne
    have hsymm : Std.Symm fun x y : Span => x.stop < y.start ∨ y.stop < x.start :=
      ⟨fun _ _ => Or.symm⟩
    have happart : l'.Pairwise fun x y => x.stop < y.start ∨ y.stop < x.start :=
      htidy.apart.imp Or.inl
    have hgap := happart.forall he he' hne
    simp only [Span.mem_bytes, Span.stop] at *
    omega
  have hagain := run_takeAll ns' l' [] out
  rw [List.append_nil] at hagain
  refine ⟨_, (htake.trans hgive).trans hagain, e, ?_, hbe, heq ▸ hbe'⟩
  exact List.mem_append_left _ (List.mem_reverse.mpr he)

end Ledger

/-- From the free list of a mount, every run hands out ranges of one chunk each, exactly if no two
    neighbouring free bytes lie in different chunks. -/
theorem allocations_inChunk_iff (h : ChunksApart sb)
    (hbuild : buildSpaceManager sb dev fsTreeRoot = .ok sm) :
    (∀ L, Relation.ReflTransGen Ledger.Call ⟨sm, []⟩ L → ∀ x ∈ L.out, InChunk sb x) ↔
      Seamless sb sm.free := by
  have hsm := buildSpaceManager_noOverlap h hbuild
  have hchunked := buildSpaceManager_chunked hbuild
  constructor
  · intro hall b hb hnext
    obtain ⟨L, hrun, x, hx, hbx, hnextx⟩ := Ledger.run_across hsm hb hnext
    obtain ⟨⟨m, hm, hsub⟩, -⟩ := hall L hrun x hx
    exact ⟨m, hm, mem_phys.mp (hsub hbx), mem_phys.mp (hsub hnextx)⟩
  · intro hF L hrun x hx
    have hstart : Ledger.Within sb sm.free ⟨sm, []⟩ := by
      refine ⟨by simp, fun hsome => ?_⟩
      rcases hsome with hsome | hsome
      · obtain ⟨e, he⟩ := List.exists_mem_of_ne_nil _ hsome
        obtain ⟨m, hm, -⟩ := hchunked e he
        exact List.ne_nil_of_mem hm
      · exact absurd rfl hsome
    obtain ⟨hwithin, -⟩ := Ledger.run_within hstart (Ledger.balanced_fresh hsm) hrun
    refine inChunk_of_seamless h hF ?_ (hwithin.chunk (Or.inr (List.ne_nil_of_mem hx))) ?_
    · rintro p ⟨e, he, hp⟩
      obtain ⟨m, hm, hlo, hhi⟩ := hchunked e he
      refine ⟨m, hm, ?_⟩
      rw [Span.mem_bytes] at hp
      simp only [Span.stop] at hhi
      simp only [ChunkMapping.holdsPhys, decide_eq_true_eq]
      omega
    · exact (bytes_subset_bytesOf hx).trans (Set.subset_union_right.trans hwithin.bytes)

/-- Two chunks of four blocks each; the trees are at the start of the first. -/
def twoChunkSb (log₁ phys₁ log₂ phys₂ : Nat) : Superblock where
  nodeSize := 4096
  sectorSize := 4096
  totalBytes := 0x200000
  rootLogAddr := log₁
  chunkLogAddr := log₁
  generation := 1
  sysChunks := [⟨log₁, 0x4000, phys₁, 0⟩, ⟨log₂, 0x4000, phys₂, 0⟩]

/-- A gap between the chunks on the device. -/
def gapSb : Superblock := twoChunkSb 0x100000 0x100000 0x200000 0x108000

theorem gapSb_apart : ChunksApart gapSb :=
  ⟨List.pairwise_pair.mpr (Span.disjoint_of_le (Or.inl (by decide))),
    List.pairwise_pair.mpr (Span.disjoint_of_le (Or.inl (by decide)))⟩

theorem allocations_inChunk_gap :
    buildSpaceManager gapSb [] 0x100000 = .ok ⟨[⟨0x101000, 0x3000⟩, ⟨0x108000, 0x4000⟩], 4096⟩ ∧
    ∀ L, Relation.ReflTransGen Ledger.Call ⟨⟨[⟨0x101000, 0x3000⟩, ⟨0x108000, 0x4000⟩], 4096⟩, []⟩ L →
      ∀ x ∈ L.out, InChunk gapSb x := by
  have hbuild : buildSpaceManager gapSb [] 0x100000 =
      .ok ⟨[⟨0x101000, 0x3000⟩, ⟨0x108000, 0x4000⟩], 4096⟩ := by decide +kernel
  refine ⟨hbuild, (allocations_inChunk_iff gapSb_apart hbuild).mpr fun b hb hnext => ?_⟩
  simp only [SpaceManager.free, mem_bytesOf, List.mem_cons, List.not_mem_nil, or_false, Span.mem_bytes,
    exists_eq_or_imp, exists_eq_left] at hb hnext
  simp only [gapSb, twoChunkSb, List.mem_cons, List.not_mem_nil, or_false, exists_eq_or_imp, exists_eq_left,
    ChunkMapping.holdsPhys, decide_eq_true_eq]
  omega

/-- The chunks touch on the device, and lie the other way round in the logical space. -/
def seamSb : Superblock := twoChunkSb 0x200000 0x100000 0x100000 0x104000

-- Return a block, and the list is one range; the next four blocks reach into the second chunk.
theorem allocation_across_chunks : ChunksApart seamSb ∧
    ∃ sm L, buildSpaceManager seamSb [] 0x200000 = .ok sm ∧
      Relation.ReflTransGen Ledger.Call ⟨sm, []⟩ L ∧ (⟨0x101000, 0x4000⟩ : Span) ∈ L.out ∧
      ¬ InChunk seamSb ⟨0x101000, 0x4000⟩ ∧
      seamSb.physAddr (seamSb.physToLog 0x101000 + 0x3000) =
        .error (.errorf "btrfs: logical address 0x%X not in any known chunk" [.num 0x204000]) := by
  refine ⟨⟨List.pairwise_pair.mpr (Span.disjoint_of_le (Or.inr (by decide))),
    List.pairwise_pair.mpr (Span.disjoint_of_le (Or.inl (by decide)))⟩, ?_⟩
  have hbuild : buildSpaceManager seamSb [] 0x200000 =
      .ok ⟨[⟨0x101000, 0x3000⟩, ⟨0x104000, 0x4000⟩], 4096⟩ := by decide +kernel
  have hnode : (⟨[⟨0x101000, 0x3000⟩, ⟨0x104000, 0x4000⟩], 4096⟩ : SpaceManager).allocNodeBlock =
      .ok (0x101000, ⟨[⟨0x102000, 0x2000⟩, ⟨0x104000, 0x4000⟩], 4096⟩) := by decide +kernel
  have hback : (⟨[⟨0x102000, 0x2000⟩, ⟨0x104000, 0x4000⟩], 4096⟩ : SpaceManager).freeRange 0x101000 4096 =
      ⟨[⟨0x101000, 0x7000⟩], 4096⟩ := by decide +kernel
  have hdata : (⟨[⟨0x101000, 0x7000⟩], 4096⟩ : SpaceManager).allocDataBytes 0x4000 4096 =
      .ok ((0x101000, 0x4000), ⟨[⟨0x105000, 0x3000⟩], 4096⟩) := by decide +kernel
  have hmap : seamSb.physAddr (seamSb.physToLog 0x101000 + 0x3000) =
      .error (.errorf "btrfs: logical address 0x%X not in any known chunk" [.num 0x204000]) := by
    decide +kernel
  have hfree := Ledger.Call.free ⟨[⟨0x102000, 0x2000⟩, ⟨0x104000, 0x4000⟩], 4096⟩ []
    (⟨0x101000, 4096⟩ : Span) []
  rw [hback] at hfree
  refine ⟨_, _, hbuild, .tail (.tail (.single (.node hnode)) hfree) (.data (by decide) hdata),
    List.mem_cons_self, fun hin => ?_, hmap⟩
  have := hin.2 0x3000 (by decide)
  rw [hmap] at this
  cases this

end Btrfs
