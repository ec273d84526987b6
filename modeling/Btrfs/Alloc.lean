/-
  Btrfs/Alloc.lean
  ================
  **The space manager** — the in-memory free list of `alloc.go` and its operations.

  The free list is a list of physical byte ranges.  `remove` takes a range out of it
  at mount, the `alloc*` family hands ranges out, `freeRange` puts one back and
  coalesces.  Each operation gets one specification, in terms of the set of free
  bytes (`SpaceManager.free`): what it hands out was free and no longer is, what it
  takes back becomes free, and the extents stay pairwise disjoint.
-/
import Btrfs.Lib.Span
import Btrfs.Basic

namespace Btrfs

open Lib

/-- A contiguous free physical region; `start` is the source's `physStart`. -/
abbrev FreeExtent := Span

/-- The in-memory free-space book-keeper. -/
structure SpaceManager where
  freeExts : List FreeExtent
  nodeSize : Nat
  deriving DecidableEq, Repr

namespace SpaceManager

variable (sm : SpaceManager)

/-- Subtract `[start, start + size)` from the free list. -/
def remove (start size : Nat) : SpaceManager :=
  if size = 0 then sm else { sm with freeExts := carve ⟨start, size⟩ sm.freeExts }

/-- Hand out one node-sized block, from the first extent that has room. -/
def allocNodeBlock : Except Err (Nat × SpaceManager) :=
  match firstFit sm.nodeSize sm.freeExts with
  | some (phys, next) => .ok (phys, { sm with freeExts := next })
  | none => .error (.errorf "btrfs: no free node-sized block available" [])

/-- Hand out `size` bytes, rounded up to whole sectors, in one contiguous extent; the
    second component is the rounded size. -/
def allocDataBytes (size sectorSize : Nat) : Except Err ((Nat × Nat) × SpaceManager) :=
  let need := (size + sectorSize - 1) / sectorSize * sectorSize
  match firstFit need sm.freeExts with
  | some (phys, next) => .ok ((phys, need), { sm with freeExts := next })
  | none => .error (.errorf "btrfs: no free space for %d bytes" [.num size])

/-- The scan for the largest free extent: the index and size of the best one so far. -/
def largestStep (sectorSize : Nat) (best : Option Nat × Nat) (fe : FreeExtent × Nat) :
    Option Nat × Nat :=
  if sectorSize ≤ fe.1.size ∧ best.2 < fe.1.size then (some fe.2, fe.1.size) else best

/-- Index and size of the first extent of largest size, if one holds a sector. -/
def largest (sectorSize : Nat) : Option Nat × Nat :=
  sm.freeExts.zipIdx.foldl (largestStep sectorSize) (none, 0)

/-- Hand out at most `maxSize` bytes (rounded down to whole sectors, but at least one) from
    the largest extent; the second component is what was taken. -/
def allocDataBytesUpTo (maxSize sectorSize : Nat) : Except Err ((Nat × Nat) × SpaceManager) :=
  let maxSize := if maxSize < sectorSize then sectorSize else maxSize
  match sm.largest sectorSize with
  | (none, _) => .error (.errorf "btrfs: no free space remaining" [])
  | (some bestIdx, bestSize) =>
    let take := if maxSize < bestSize then maxSize / sectorSize * sectorSize else bestSize
    match sm.freeExts[bestIdx]? with
    | none => .error (.errorf "btrfs: no free space remaining" [])
    | some fe =>
      .ok ((fe.start, take),
        { sm with freeExts :=
            sm.freeExts.take bestIdx ++ Span.shrink take fe ++ sm.freeExts.drop (bestIdx + 1) })

/-- Sort by start and merge neighbours; a list of fewer than two extents is left alone. -/
def coalesce : SpaceManager :=
  if sm.freeExts.length < 2 then sm else { sm with freeExts := Lib.coalesce sm.freeExts }

/-- Return a physical range to the free list. -/
def freeRange (physStart size : Nat) : SpaceManager :=
  coalesce { sm with freeExts := sm.freeExts ++ [⟨physStart, size⟩] }

/-- The free bytes. -/
def free : Set Nat := bytesOf sm.freeExts

/-- No two free extents overlap. -/
def NoOverlap : Prop := Scattered sm.freeExts

/-! ### Specifications -/

variable {sm}

theorem free_remove (start size : Nat) :
    (sm.remove start size).free = sm.free \ (⟨start, size⟩ : Span).bytes := by
  rw [remove]
  split_ifs with h
  · subst h
    have : (⟨start, 0⟩ : Span).bytes = ∅ := by simp [Span.bytes]
    rw [this, Set.sdiff_empty]
  · exact bytesOf_carve (Nat.pos_of_ne_zero h) _

theorem noOverlap_remove (start size : Nat) (h : sm.NoOverlap) : (sm.remove start size).NoOverlap := by
  rw [remove]
  split_ifs with hz
  · exact h
  · exact scattered_carve (s := ⟨start, size⟩) (Nat.pos_of_ne_zero hz) h

/-- What an allocation of `n` bytes at `p` does to the free list. -/
structure Allocates (sm : SpaceManager) (p n : Nat) (sm' : SpaceManager) : Prop where
  was_free : (⟨p, n⟩ : Span).bytes ⊆ sm.free
  free_eq : sm'.free = sm.free \ (⟨p, n⟩ : Span).bytes
  noOverlap : sm'.NoOverlap
  nodeSize_eq : sm'.nodeSize = sm.nodeSize

/-- Shortening one extent from the front is an allocation. -/
theorem allocates_of_shrink {l m : List FreeExtent} {e : FreeExtent} {n : Nat}
    (hd : sm.NoOverlap) (hl : sm.freeExts = l ++ e :: m) (hn : n ≤ e.size) :
    Allocates sm e.start n { sm with freeExts := l ++ Span.shrink n e ++ m } := by
  rw [NoOverlap, hl] at hd
  refine ⟨?_, ?_, ?_, rfl⟩
  · rw [free, hl]; exact front_subset_bytesOf hn
  · rw [free, free, hl]; exact bytesOf_takeFront hd hn
  · exact scattered_takeFront hd hn

theorem allocNodeBlock_inv {p : Nat} {sm' : SpaceManager} (h : sm.allocNodeBlock = .ok (p, sm')) :
    ∃ l e m, sm.freeExts = l ++ e :: m ∧ p = e.start ∧ sm.nodeSize ≤ e.size ∧
      sm' = { sm with freeExts := l ++ Span.shrink sm.nodeSize e ++ m } := by
  rw [allocNodeBlock] at h
  split at h
  · next phys next hfit =>
    simp only [Except.ok.injEq, Prod.mk.injEq] at h
    obtain ⟨rfl, rfl⟩ := h
    obtain ⟨l, e, m, hl, hn, rfl, rfl⟩ := firstFit_eq_some hfit
    exact ⟨l, e, m, hl, rfl, hn, rfl⟩
  · cases h

theorem allocNodeBlock_ok {p : Nat} {sm' : SpaceManager} (hd : sm.NoOverlap)
    (h : sm.allocNodeBlock = .ok (p, sm')) : Allocates sm p sm.nodeSize sm' := by
  obtain ⟨l, e, m, hl, rfl, hn, rfl⟩ := allocNodeBlock_inv h
  exact allocates_of_shrink hd hl hn

theorem allocDataBytes_inv {size sectorSize p need : Nat} {sm' : SpaceManager}
    (h : sm.allocDataBytes size sectorSize = .ok ((p, need), sm')) :
    need = (size + sectorSize - 1) / sectorSize * sectorSize ∧
      ∃ l e m, sm.freeExts = l ++ e :: m ∧ p = e.start ∧ need ≤ e.size ∧
        sm' = { sm with freeExts := l ++ Span.shrink need e ++ m } := by
  simp only [allocDataBytes] at h
  split at h
  · next phys next hfit =>
    simp only [Except.ok.injEq, Prod.mk.injEq] at h
    obtain ⟨⟨rfl, rfl⟩, rfl⟩ := h
    obtain ⟨l, e, m, hl, hn, rfl, rfl⟩ := firstFit_eq_some hfit
    exact ⟨rfl, l, e, m, hl, rfl, hn, rfl⟩
  · cases h

theorem allocDataBytes_ok {size sectorSize p need : Nat} {sm' : SpaceManager} (hd : sm.NoOverlap)
    (h : sm.allocDataBytes size sectorSize = .ok ((p, need), sm')) :
    need = (size + sectorSize - 1) / sectorSize * sectorSize ∧ Allocates sm p need sm' := by
  obtain ⟨hneed, l, e, m, hl, rfl, hle, rfl⟩ := allocDataBytes_inv h
  exact ⟨hneed, allocates_of_shrink hd hl hle⟩

/-- The scan ends at an extent of the list that holds a sector. -/
theorem largest_eq_some {sectorSize bestIdx bestSize : Nat}
    (h : sm.largest sectorSize = (some bestIdx, bestSize)) :
    ∃ fe, sm.freeExts[bestIdx]? = some fe ∧ fe.size = bestSize ∧ sectorSize ≤ bestSize := by
  have hscan : ∀ (l : List (FreeExtent × Nat)) (best : Option Nat × Nat),
      (∀ fe ∈ l, sm.freeExts[fe.2]? = some fe.1) →
      (∀ i, best.1 = some i → ∃ fe, sm.freeExts[i]? = some fe ∧ fe.size = best.2 ∧
        sectorSize ≤ best.2) →
      ∀ i, (l.foldl (largestStep sectorSize) best).1 = some i →
        ∃ fe, sm.freeExts[i]? = some fe ∧ fe.size = (l.foldl (largestStep sectorSize) best).2 ∧
          sectorSize ≤ (l.foldl (largestStep sectorSize) best).2 := by
    intro l
    induction l with
    | nil => intro best _ hbest; exact hbest
    | cons fe l ih =>
      intro best hl hbest
      refine ih _ (fun fe' hfe' => hl fe' (List.mem_cons_of_mem _ hfe')) ?_
      rw [largestStep]
      split_ifs with hlarger
      · intro i hi
        cases hi
        exact ⟨fe.1, hl fe List.mem_cons_self, rfl, hlarger.1⟩
      · exact hbest
  have hfinal := hscan sm.freeExts.zipIdx (none, 0)
    (fun fe hfe => List.mem_zipIdx_iff_getElem?.mp hfe) nofun bestIdx
  rw [largest] at h
  rw [h] at hfinal
  exact hfinal rfl

/-- What `allocDataBytesUpTo` takes: all of the largest extent, or whole sectors from its front. -/
theorem allocDataBytesUpTo_inv {maxSize sectorSize p taken : Nat} {sm' : SpaceManager}
    (h : sm.allocDataBytesUpTo maxSize sectorSize = .ok ((p, taken), sm')) :
    ∃ l e m, sm.freeExts = l ++ e :: m ∧ p = e.start ∧
      sm' = { sm with freeExts := l ++ Span.shrink taken e ++ m } ∧ sectorSize ≤ e.size ∧
      (taken = e.size ∧ e.size ≤ max maxSize sectorSize ∨
        max maxSize sectorSize < e.size ∧ taken = max maxSize sectorSize / sectorSize * sectorSize) := by
  simp only [allocDataBytesUpTo] at h
  cases hbest : sm.largest sectorSize with
  | mk best bestSize =>
    cases best with
    | none => rw [hbest] at h; cases h
    | some bestIdx =>
      obtain ⟨fe, hfe, hsize, hge⟩ := largest_eq_some hbest
      rw [hbest] at h
      simp only [hfe, Except.ok.injEq, Prod.mk.injEq] at h
      obtain ⟨⟨rfl, htaken⟩, rfl⟩ := h
      have hlimit : (if maxSize < sectorSize then sectorSize else maxSize) = max maxSize sectorSize := by
        split_ifs <;> omega
      rw [hlimit] at htaken ⊢
      obtain ⟨hlen, hget⟩ := List.getElem?_eq_some_iff.mp hfe
      have hsplit : sm.freeExts = sm.freeExts.take bestIdx ++ fe :: sm.freeExts.drop (bestIdx + 1) := by
        rw [← hget, List.getElem_cons_drop, List.take_append_drop]
      refine ⟨_, fe, _, hsplit, rfl, by rw [htaken], hsize ▸ hge, ?_⟩
      rw [← htaken, hsize]
      split_ifs with hlt
      · exact Or.inr ⟨hlt, rfl⟩
      · exact Or.inl ⟨rfl, not_lt.mp hlt⟩

theorem allocDataBytesUpTo_ok {maxSize sectorSize p taken : Nat} {sm' : SpaceManager}
    (hd : sm.NoOverlap) (hsector : 0 < sectorSize)
    (h : sm.allocDataBytesUpTo maxSize sectorSize = .ok ((p, taken), sm')) :
    0 < taken ∧ Allocates sm p taken sm' := by
  obtain ⟨l, e, m, hl, rfl, rfl, hge, hcase⟩ := allocDataBytesUpTo_inv h
  have hlimit : sectorSize ≤ max maxSize sectorSize := le_max_right _ _
  have hsizes : 0 < taken ∧ taken ≤ e.size := by
    rcases hcase with ⟨rfl, -⟩ | ⟨hlt, rfl⟩
    · exact ⟨by omega, le_rfl⟩
    · exact ⟨Nat.mul_pos (Nat.div_pos hlimit hsector) hsector, (Nat.div_mul_le_self _ _).trans hlt.le⟩
  exact ⟨hsizes.1, allocates_of_shrink hd hl hsizes.2⟩

theorem free_coalesce : sm.coalesce.free = sm.free := by
  rw [coalesce]
  split_ifs
  · rfl
  · exact bytesOf_coalesce _

theorem noOverlap_coalesce (h : sm.NoOverlap) : sm.coalesce.NoOverlap := by
  rw [coalesce]
  split_ifs
  · exact h
  · exact scattered_coalesce h

@[simp] theorem coalesce_nodeSize : sm.coalesce.nodeSize = sm.nodeSize := by
  rw [coalesce]; split_ifs <;> rfl

@[simp] theorem freeRange_nodeSize (p n : Nat) : (sm.freeRange p n).nodeSize = sm.nodeSize := by
  simp [freeRange]

theorem free_freeRange (p n : Nat) :
    (sm.freeRange p n).free = sm.free ∪ (⟨p, n⟩ : Span).bytes := by
  rw [freeRange, free_coalesce]
  simp [free]

theorem noOverlap_freeRange {p n : Nat} (h : sm.NoOverlap)
    (hp : Disjoint sm.free (⟨p, n⟩ : Span).bytes) : (sm.freeRange p n).NoOverlap := by
  refine noOverlap_coalesce ?_
  rw [NoOverlap, scattered_append]
  exact ⟨h, by simp [Scattered], by simpa [free] using hp⟩

/-- The number of node blocks the free extents hold. -/
def blocks (sm : SpaceManager) : Nat := blocksOf sm.nodeSize sm.freeExts

theorem allocNodeBlock_isOk (h : 0 < sm.blocks) : ∃ r, sm.allocNodeBlock = .ok r := by
  rw [allocNodeBlock]
  cases hfit : firstFit sm.nodeSize sm.freeExts with
  | some r => exact ⟨_, rfl⟩
  | none =>
    obtain ⟨e, he, hn⟩ := exists_of_blocksOf_pos h
    have := firstFit_eq_none.mp hfit e he
    omega

theorem allocNodeBlock_blocks {p : Nat} {sm' : SpaceManager} (hns : 0 < sm.nodeSize)
    (h : sm.allocNodeBlock = .ok (p, sm')) : sm'.blocks + 1 = sm.blocks := by
  obtain ⟨l, e, m, hl, -, hn, rfl⟩ := allocNodeBlock_inv h
  rw [blocks, blocks, hl]
  exact blocksOf_takeFront hns hn

/-- Returned blocks can be handed out again. -/
theorem blocks_freeRange (p n : Nat) : sm.blocks + n / sm.nodeSize ≤ (sm.freeRange p n).blocks := by
  have happ : sm.blocks + n / sm.nodeSize = blocksOf sm.nodeSize (sm.freeExts ++ [⟨p, n⟩]) := by
    simp [blocks, blocksOf]
  rw [happ, blocks, freeRange_nodeSize, freeRange, coalesce]
  split_ifs
  · exact le_rfl
  · exact blocksOf_coalesce _

/-! ### Several blocks, taken and returned -/

/-- Successive node allocations hand out the blocks at `ps`. -/
inductive TakesBlocks : SpaceManager → List Nat → SpaceManager → Prop
  | nil (sm : SpaceManager) : TakesBlocks sm [] sm
  | cons {sm sm₁ sm' : SpaceManager} {p : Nat} {ps : List Nat}
      (hp : sm.allocNodeBlock = .ok (p, sm₁)) (hps : TakesBlocks sm₁ ps sm') : TakesBlocks sm (p :: ps) sm'

theorem TakesBlocks.append {sm₁ sm₂ : SpaceManager} {ps qs : List Nat} (h : TakesBlocks sm ps sm₁)
    (h' : TakesBlocks sm₁ qs sm₂) : TakesBlocks sm (ps ++ qs) sm₂ := by
  induction h with
  | nil sm => exact h'
  | cons hp _ ih => exact .cons hp (ih h')

/-- More blocks begin with the same ones. -/
theorem TakesBlocks.isPrefix {sm₁ sm₂ : SpaceManager} {ps qs : List Nat} (h : TakesBlocks sm ps sm₁)
    (h' : TakesBlocks sm qs sm₂) (hlen : ps.length ≤ qs.length) : ps <+: qs := by
  induction h generalizing qs with
  | nil sm => exact List.nil_prefix
  | cons hp _ ih =>
    cases h' with
    | nil => simp at hlen
    | cons hq hqs =>
      rw [hp] at hq
      simp only [Except.ok.injEq, Prod.mk.injEq] at hq
      obtain ⟨rfl, rfl⟩ := hq
      exact List.cons_prefix_cons.mpr ⟨rfl, ih hqs (by simpa using hlen)⟩

/-- The spans of the blocks at `ps`. -/
def blockSpans (n : Nat) (ps : List Nat) : List Span := ps.map fun p => ⟨p, n⟩

theorem nodup_of_scattered {n : Nat} (hn : 0 < n) {ps : List Nat} (h : Scattered (blockSpans n ps)) :
    ps.Nodup := by
  rw [Scattered, blockSpans, List.pairwise_map] at h
  refine h.imp fun {p q} hpq heq => ?_
  subst heq
  exact Set.disjoint_left.mp hpq ⟨le_refl p, Nat.lt_add_of_pos_right hn⟩
    ⟨le_refl p, Nat.lt_add_of_pos_right hn⟩

/-- What taking the blocks at `ps` does to the free list. -/
structure Took (sm : SpaceManager) (ps : List Nat) (sm' : SpaceManager) : Prop where
  was_free : bytesOf (blockSpans sm.nodeSize ps) ⊆ sm.free
  apart : Scattered (blockSpans sm.nodeSize ps)
  free_eq : sm'.free = sm.free \ bytesOf (blockSpans sm.nodeSize ps)
  noOverlap : sm'.NoOverlap
  nodeSize_eq : sm'.nodeSize = sm.nodeSize

theorem TakesBlocks.took {sm' : SpaceManager} {ps : List Nat} (h : TakesBlocks sm ps sm') (hd : sm.NoOverlap) :
    Took sm ps sm' := by
  induction h with
  | nil sm => exact ⟨by simp [blockSpans], by simp [blockSpans], by simp [blockSpans], hd, rfl⟩
  | @cons sm sm₁ sm' p ps hp _ ih =>
    have hone := allocNodeBlock_ok hd hp
    have hrest := ih hone.noOverlap
    have hcons : blockSpans sm.nodeSize (p :: ps) =
        ⟨p, sm.nodeSize⟩ :: blockSpans sm.nodeSize ps := rfl
    have hsub := hrest.was_free
    rw [hone.nodeSize_eq, hone.free_eq] at hsub
    refine ⟨?_, ?_, ?_, hrest.noOverlap, hrest.nodeSize_eq.trans hone.nodeSize_eq⟩
    · rw [hcons, bytesOf_cons]
      exact Set.union_subset hone.was_free (hsub.trans Set.sdiff_subset)
    · have hapart := hrest.apart
      rw [hone.nodeSize_eq] at hapart
      rw [hcons, scattered_cons]
      exact ⟨(Set.disjoint_sdiff_right).mono_right hsub, hapart⟩
    · rw [hrest.free_eq, hone.free_eq, hone.nodeSize_eq, hcons, bytesOf_cons, Set.sdiff_sdiff]

theorem TakesBlocks.pos {sm' : SpaceManager} {ps : List Nat} (h : TakesBlocks sm ps sm')
    (hpos : ∀ e ∈ sm.freeExts, 0 < e.size) : ∀ e ∈ sm'.freeExts, 0 < e.size := by
  induction h with
  | nil sm => exact hpos
  | @cons sm sm₁ sm' p ps hp _ ih =>
    refine ih ?_
    obtain ⟨l, e, m, hl, -, hn, rfl⟩ := allocNodeBlock_inv hp
    simp only [hl, List.forall_mem_append, List.forall_mem_cons] at hpos ⊢
    exact ⟨⟨hpos.1, shrink_pos hn⟩, hpos.2.2⟩

/-- A range returned to a list of non-empty extents leaves it tidy. -/
theorem tidy_freeRange {p n : Nat} (h : sm.NoOverlap) (hpos : ∀ e ∈ sm.freeExts, 0 < e.size)
    (hp : Disjoint sm.free (⟨p, n⟩ : Span).bytes) (hn : 0 < n) : Tidy (sm.freeRange p n).freeExts := by
  have hall : ∀ e ∈ sm.freeExts ++ [⟨p, n⟩], 0 < e.size := by
    simp only [List.forall_mem_append, List.forall_mem_singleton]
    exact ⟨hpos, hn⟩
  have hscat : Scattered (sm.freeExts ++ [⟨p, n⟩]) := by
    rw [scattered_append]
    exact ⟨h, by simp [Scattered], by simpa [free] using hp⟩
  rw [freeRange, coalesce]
  split_ifs with hlen
  · refine ⟨?_, hall⟩
    simp only [List.length_append, List.length_singleton] at hlen
    have hnil : sm.freeExts = [] := List.eq_nil_of_length_eq_zero (by omega)
    simp [hnil]
  · exact tidy_coalesce hscat hall

/-- Return the blocks at `ps`. -/
def giveBack (sm : SpaceManager) (n : Nat) (ps : List Nat) : SpaceManager :=
  ps.foldl (fun sm p => sm.freeRange p n) sm

theorem giveBack_nodeSize (n : Nat) (ps : List Nat) : (sm.giveBack n ps).nodeSize = sm.nodeSize := by
  induction ps generalizing sm with
  | nil => rfl
  | cons p ps ih =>
    have hstep : sm.giveBack n (p :: ps) = (sm.freeRange p n).giveBack n ps := rfl
    rw [hstep, ih, freeRange_nodeSize]

theorem free_giveBack (n : Nat) (ps : List Nat) :
    (sm.giveBack n ps).free = sm.free ∪ bytesOf (blockSpans n ps) := by
  induction ps generalizing sm with
  | nil => simp [giveBack, blockSpans]
  | cons p ps ih =>
    have hstep : sm.giveBack n (p :: ps) = (sm.freeRange p n).giveBack n ps := rfl
    have hcons : blockSpans n (p :: ps) = ⟨p, n⟩ :: blockSpans n ps := rfl
    rw [hstep, ih, free_freeRange, hcons, bytesOf_cons, Set.union_assoc]

theorem noOverlap_giveBack {n : Nat} {ps : List Nat} (h : sm.NoOverlap)
    (hps : Scattered (blockSpans n ps)) (hd : Disjoint sm.free (bytesOf (blockSpans n ps))) :
    (sm.giveBack n ps).NoOverlap := by
  induction ps generalizing sm with
  | nil => exact h
  | cons p ps ih =>
    have hcons : blockSpans n (p :: ps) = ⟨p, n⟩ :: blockSpans n ps := rfl
    rw [hcons, scattered_cons] at hps
    rw [hcons, bytesOf_cons, Set.disjoint_union_right] at hd
    refine ih (noOverlap_freeRange h hd.1) hps.2 ?_
    rw [free_freeRange, Set.disjoint_union_left]
    exact ⟨hd.2, hps.1⟩

theorem tidy_giveBack {n : Nat} {ps : List Nat} (hn : 0 < n) (hne : ps ≠ []) (h : sm.NoOverlap)
    (hpos : ∀ e ∈ sm.freeExts, 0 < e.size) (hps : Scattered (blockSpans n ps))
    (hd : Disjoint sm.free (bytesOf (blockSpans n ps))) : Tidy (sm.giveBack n ps).freeExts := by
  induction ps generalizing sm with
  | nil => exact absurd rfl hne
  | cons p ps ih =>
    have hcons : blockSpans n (p :: ps) = ⟨p, n⟩ :: blockSpans n ps := rfl
    rw [hcons, scattered_cons] at hps
    rw [hcons, bytesOf_cons, Set.disjoint_union_right] at hd
    have htidy := tidy_freeRange h hpos hd.1 hn
    by_cases hnil : ps = []
    · subst hnil
      exact htidy
    · refine ih hnil (noOverlap_freeRange h hd.1) htidy.pos hps.2 ?_
      rw [free_freeRange, Set.disjoint_union_left]
      exact ⟨hd.2, hps.1⟩

/-- Blocks taken from a tidy list and returned leave the list as it was. -/
theorem TakesBlocks.giveBack_eq {sm' : SpaceManager} {ps : List Nat} (h : TakesBlocks sm ps sm')
    (htidy : Tidy sm.freeExts) (hn : 0 < sm.nodeSize) : sm'.giveBack sm.nodeSize ps = sm := by
  by_cases hne : ps = []
  · subst hne
    cases h
    rfl
  have htook := h.took htidy.scattered
  have hd : Disjoint sm'.free (bytesOf (blockSpans sm.nodeSize ps)) := by
    rw [htook.free_eq]
    exact Set.disjoint_sdiff_left
  have hback : Tidy (sm'.giveBack sm.nodeSize ps).freeExts :=
    tidy_giveBack hn hne htook.noOverlap (h.pos htidy.pos) htook.apart hd
  have hfree : bytesOf (sm'.giveBack sm.nodeSize ps).freeExts = bytesOf sm.freeExts := by
    change (sm'.giveBack sm.nodeSize ps).free = sm.free
    rw [free_giveBack, htook.free_eq, Set.sdiff_union_of_subset htook.was_free]
  have hexts := hback.eq_of_bytesOf htidy hfree
  have hsize : (sm'.giveBack sm.nodeSize ps).nodeSize = sm.nodeSize := by
    rw [giveBack_nodeSize, htook.nodeSize_eq]
  cases hsm : sm'.giveBack sm.nodeSize ps
  rw [hsm] at hexts hsize
  simp only at hexts hsize
  rw [hexts, hsize]

end SpaceManager

end Btrfs
