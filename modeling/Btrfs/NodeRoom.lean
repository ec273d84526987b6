/-
  Btrfs/NodeRoom.lean
  ===================
  **When a call misses no node block.**

  Node blocks and data come from one free list.  What the tree operations of a call hold
  at one time is a matter of its traffic alone; what the data takes beside that is its
  size in node blocks, and at most two blocks more, for the ends at which it breaks free
  extents.  With as many blocks free before the call, no tree operation asks in vain.
-/
import Btrfs.StepRules

namespace Btrfs

open Lib

variable {s s' : MapFs} {k : Nat}

/-! ## 1. Traffic -/

/-- The most node blocks that are taken beyond the start at one time, when `held` are held then.  A
    block that is not held is not freed. -/
def peak : Nat → List NodeEvent → Nat
  | _, [] => 0
  | held, .alloc _ :: l => peak (held + 1) l + 1
  | held, .free i :: l => if i < held then peak (held - 1) l - 1 else peak held l
  | held, .rewrite _ _ :: l => peak held l

/-- There are node blocks for all traffic to come, and `k` more; none was missed so far. -/
structure Room (k : Nat) (s : MapFs) : Prop where
  enough : peak s.nodes.length s.script.flatten + k ≤ s.vol.sm.blocks
  fed : s.starved = false
  sm_nodeSize : s.vol.sm.nodeSize = s.sb.nodeSize
  nodeSize_pos : 0 < s.sb.nodeSize

theorem Room.mono {m : Nat} (h : Room k s) (hm : m ≤ k) : Room m s :=
  ⟨le_trans (Nat.add_le_add_left hm _) h.enough, h.fed, h.sm_nodeSize, h.nodeSize_pos⟩

/-- The room with the events of one operation taken off the script, to be run. -/
structure Pending (l : List NodeEvent) (k : Nat) (s : MapFs) : Prop where
  enough : peak s.nodes.length (l ++ s.script.flatten) + k ≤ s.vol.sm.blocks
  fed : s.starved = false
  sm_nodeSize : s.vol.sm.nodeSize = s.sb.nodeSize
  nodeSize_pos : 0 < s.sb.nodeSize

theorem Pending.event {ev : NodeEvent} {l : List NodeEvent} (h : Pending (ev :: l) k s) :
    ∃ s', ev.run s = .ok () s' ∧ Pending l k s' := by
  obtain ⟨henough, hfed, hns, hpos⟩ := h
  cases ev with
  | alloc n =>
    rw [List.cons_append, peak] at henough
    obtain ⟨⟨phys, sm⟩, hal⟩ := SpaceManager.allocNodeBlock_isOk (show 0 < s.vol.sm.blocks by omega)
    have hblocks := SpaceManager.allocNodeBlock_blocks (hns ▸ hpos) hal
    have hsize : sm.nodeSize = s.vol.sm.nodeSize := by
      obtain ⟨l, e, m, -, -, -, rfl⟩ := SpaceManager.allocNodeBlock_inv hal
      rfl
    refine ⟨_, by simp only [NodeEvent.run, hal]; rfl, ?_⟩
    refine ⟨?_, hfed, hsize.trans hns, hpos⟩
    simp only [List.length_cons]
    omega
  | free i =>
    rw [List.cons_append, peak] at henough
    by_cases hi : i < s.nodes.length
    · obtain ⟨phys, hphys⟩ : ∃ phys, s.nodes[i]? = some phys := ⟨_, List.getElem?_eq_getElem hi⟩
      have hblocks : s.vol.sm.blocks + s.sb.nodeSize / s.vol.sm.nodeSize ≤
          (s.vol.sm.freeRange phys s.sb.nodeSize).blocks := SpaceManager.blocks_freeRange _ _
      rw [hns, Nat.div_self hpos] at hblocks
      rw [if_pos hi] at henough
      refine ⟨_, by simp only [NodeEvent.run, hphys]; rfl, ?_⟩
      refine ⟨?_, hfed, ?_, hpos⟩
      · simp only [List.length_eraseIdx_of_lt hi]
        omega
      · simp only [SpaceManager.freeRange_nodeSize, hns]
    · rw [if_neg hi] at henough
      have hnone : s.nodes[i]? = none := List.getElem?_eq_none (not_lt.mp hi)
      exact ⟨s, by simp only [NodeEvent.run, hnone], henough, hfed, hns, hpos⟩
  | rewrite i n =>
    rw [List.cons_append, peak] at henough
    cases hi : s.nodes[i]? with
    | none => exact ⟨s, by simp only [NodeEvent.run, hi], henough, hfed, hns, hpos⟩
    | some phys =>
      refine ⟨_, by simp only [NodeEvent.run, hi]; rfl, ?_⟩
      exact ⟨henough, hfed, hns, hpos⟩

theorem Pending.events {l : List NodeEvent} (h : Pending l k s) :
    ∃ s', l.forM NodeEvent.run s = .ok () s' ∧ Room k s' := by
  induction l generalizing s with
  | nil => exact ⟨s, rfl, h.enough, h.fed, h.sm_nodeSize, h.nodeSize_pos⟩
  | cons ev l ih =>
    obtain ⟨s₁, hev, h₁⟩ := h.event
    obtain ⟨s', hrest, h'⟩ := ih h₁
    exact ⟨s', run_forM_cons.mpr ⟨s₁, hev, hrest⟩, h'⟩

theorem Room.traffic (h : Room k s) : ∃ s', traffic s = .ok () s' ∧ Room k s' := by
  refine Pending.events (s := { s with script := s.script.tail }) ⟨?_, h.fed, h.sm_nodeSize, h.nodeSize_pos⟩
  have henough := h.enough
  cases hscript : s.script with
  | nil =>
    rw [hscript] at henough
    exact henough
  | cons piece rest =>
    rw [hscript, List.flatten_cons] at henough
    exact henough

/-! ## 2. Steps -/

/-- A step that leaves room for what is still to come. -/
def RoomKept (s s' : MapFs) : Prop := ∀ k, Room k s → Room k s'

instance : IsPreorder MapFs RoomKept where
  refl _ _ := id
  trans _ _ _ h h' k := h' k ∘ h k

theorem roomKept_mapOp {f : Superblock → Records Key Bytes → Except Err (Records Key Bytes)} :
    Always RoomKept (mapOp f) := by
  intro s k h
  obtain ⟨s', ht, h'⟩ := h.traffic
  simp only [mapOp]
  cases f s.sb s.records with
  | error e => exact h
  | ok r =>
    simp only [ht]
    exact ⟨h'.enough, h'.fed, h'.sm_nodeSize, h'.nodeSize_pos⟩

theorem roomKept_commit : Always RoomKept mapBackend.updateFsTreeRoot := by
  intro s k h
  obtain ⟨s', ht, h'⟩ := h.traffic
  change Room k (final (mapCommit s))
  simp only [mapCommit, ht]
  exact ⟨h'.enough, h'.fed, h'.sm_nodeSize, h'.nodeSize_pos⟩

theorem respects_roomKept : Respects RoomKept fun _ => True where
  insert _ := show Always RoomKept (mapInsert _ _) from roomKept_mapOp
  update _ := show Always RoomKept (mapUpdate _ _) from roomKept_mapOp
  delete _ := show Always RoomKept (mapDelete _) from roomKept_mapOp
  deletePrefix _ := show Always RoomKept (mapDeletePrefix _ _) from roomKept_mapOp
  commit := roomKept_commit

theorem roomKept_freeInodeExtents (ino : Nat) (s : MapFs) :
    RoomKept s (freeInodeExtents mapBackend ino s) := by
  simp only [freeInodeExtents]
  cases mapBackend.collectPrefixItems s ino typeExtentData with
  | error e => exact refl_of RoomKept s
  | ok items =>
    simp only
    induction items.map Prod.snd generalizing s with
    | nil => exact refl_of RoomKept s
    | cons d l ih =>
      rw [List.foldl_cons]
      refine trans_of RoomKept (fun k h => ?_) (ih (freeExtent mapBackend s d))
      simp only [freeExtent]
      cases extentSpan (mapBackend.sb s) extentDataRegular d with
      | none => exact h
      | some x =>
        have hblocks : s.vol.sm.blocks + x.size / s.vol.sm.nodeSize ≤
            (s.vol.sm.freeRange x.start x.size).blocks := SpaceManager.blocks_freeRange _ _
        refine ⟨h.enough.trans ?_, h.fed, ?_, h.nodeSize_pos⟩
        · exact (Nat.le_add_right _ _).trans hblocks
        · exact (SpaceManager.freeRange_nodeSize _ _).trans h.sm_nodeSize

/-! ## 3. Data -/

/-- The node blocks that storing the data greedily can cost: the last turn takes a whole sector, and
    a turn that does not empty a free extent breaks a block. -/
def chunkBlocks (sb : Superblock) (len : Nat) : Nat :=
  if len = 0 then 0
  else if len < sb.sectorSize then sb.sectorSize / sb.nodeSize + 1
  else (len + sb.sectorSize) / sb.nodeSize + 2

/-- The node blocks that storing the data can cost. -/
def dataBlocks (sb : Superblock) (data : Bytes) : Nat :=
  if data.length ≤ maxInlineSize ∨ isAllZero data = true then 0
  else (data.length + sb.sectorSize) / sb.nodeSize + 2

theorem chunkBlocks_of_lt {sb : Superblock} {len : Nat} (h : len < sb.sectorSize) :
    chunkBlocks sb len ≤ sb.sectorSize / sb.nodeSize + 1 := by
  rw [chunkBlocks]
  split_ifs
  · exact Nat.zero_le _
  · exact le_rfl

theorem chunkBlocks_le (sb : Superblock) (len : Nat) :
    chunkBlocks sb len ≤ (len + sb.sectorSize) / sb.nodeSize + 2 := by
  have hmono : sb.sectorSize / sb.nodeSize ≤ (len + sb.sectorSize) / sb.nodeSize :=
    Nat.div_le_div_right (Nat.le_add_left _ _)
  rw [chunkBlocks]
  split_ifs
  · exact Nat.zero_le _
  · omega
  · exact le_rfl

/-- A turn of the greedy loop pays for what it takes. -/
theorem chunkBlocks_turn {sb : Superblock} {len taken size : Nat} (hsector : sb.sectorSize ≤ size)
    (hpos : 0 < sb.sectorSize) (hlen : len ≠ 0)
    (hcase : taken = size ∧ size ≤ max len sb.sectorSize ∨
      max len sb.sectorSize < size ∧
        taken = max len sb.sectorSize / sb.sectorSize * sb.sectorSize) :
    taken / sb.nodeSize + (if taken = size then 0 else 1) + chunkBlocks sb (len - taken) ≤
      chunkBlocks sb len := by
  by_cases hsmall : len < sb.sectorSize
  · -- one sector is taken, and nothing is left
    rw [max_eq_right hsmall.le] at hcase
    have htaken : taken = sb.sectorSize := by
      rcases hcase with ⟨rfl, hle⟩ | ⟨-, rfl⟩
      · omega
      · rw [Nat.div_self hpos, Nat.one_mul]
    have hnone : chunkBlocks sb (len - taken) = 0 := by
      rw [chunkBlocks, if_pos (show len - taken = 0 by omega)]
    rw [hnone, chunkBlocks, if_neg hlen, if_pos hsmall, htaken]
    split_ifs <;> omega
  rw [max_eq_left (not_lt.mp hsmall)] at hcase
  have htaken : taken ≤ len := by
    rcases hcase with ⟨rfl, hle⟩ | ⟨-, rfl⟩
    · exact hle
    · exact Nat.div_mul_le_self _ _
  have hwhole : chunkBlocks sb len = (len + sb.sectorSize) / sb.nodeSize + 2 := by
    rw [chunkBlocks, if_neg hlen, if_neg hsmall]
  have hadd : ∀ rest, taken + rest ≤ len + sb.sectorSize →
      taken / sb.nodeSize + rest / sb.nodeSize ≤ (len + sb.sectorSize) / sb.nodeSize :=
    fun rest hle => Nat.div_add_div_le_add_div.trans (Nat.div_le_div_right hle)
  rw [hwhole]
  rcases hcase with ⟨hall, -⟩ | ⟨-, htrunc⟩
  · have hrest := chunkBlocks_le sb (len - taken)
    have hsum := hadd (len - taken + sb.sectorSize) (by omega)
    rw [if_pos hall]
    omega
  · -- less than a sector is left
    have hleft : len - taken < sb.sectorSize := by
      have hmod := Nat.mod_lt len hpos
      have hdiv := Nat.div_add_mod' len sb.sectorSize
      omega
    have hrest := chunkBlocks_of_lt hleft
    have hsum := hadd sb.sectorSize (by omega)
    split_ifs <;> omega

/-- Storing bytes in a free extent. -/
theorem Room.store {l m : List FreeExtent} {e : FreeExtent} {taken n : Nat} (phys : Nat)
    (chunk : Bytes) (h : Room (n + (taken / s.sb.nodeSize + if taken = e.size then 0 else 1)) s)
    (hl : s.vol.sm.freeExts = l ++ e :: m) (htaken : taken ≤ e.size) :
    Room n (writeData mapBackend phys chunk { s with vol := { s.vol with
      sm := { s.vol.sm with freeExts := l ++ Span.shrink taken e ++ m } } }) := by
  have henough := h.enough
  have hblocks : blocksOf s.vol.sm.nodeSize s.vol.sm.freeExts ≤ _ := hl ▸ blocksOf_shrink htaken
  rw [SpaceManager.blocks] at henough
  refine ⟨?_, h.fed, h.sm_nodeSize, h.nodeSize_pos⟩
  change peak s.nodes.length s.script.flatten + n ≤
    blocksOf s.vol.sm.nodeSize (l ++ Span.shrink taken e ++ m)
  rw [h.sm_nodeSize] at henough hblocks ⊢
  omega

theorem Room.writeChunks {ino generation turns off : Nat} {data : Bytes}
    (hsector : 0 < s.sb.sectorSize) (h : Room (k + chunkBlocks s.sb data.length) s) :
    Room k (final (writeChunks mapBackend ino generation turns off data s)) := by
  induction turns generalizing off data s with
  | zero =>
    rw [Btrfs.writeChunks]
    split_ifs <;> exact h.mono (Nat.le_add_right _ _)
  | succ turns ih =>
    rw [Btrfs.writeChunks]
    split_ifs with hempty
    · exact h.mono (Nat.le_add_right _ _)
    have hlen : data.length ≠ 0 := by
      rw [List.isEmpty_iff] at hempty
      exact fun hzero => hempty (List.length_eq_zero_iff.mp hzero)
    refine final_bind (fun r s₁ halloc => ?_) fun e s₁ halloc => ?_
    · obtain ⟨phys, taken⟩ := r
      obtain ⟨sm, hal, rfl⟩ := allocDataBytesUpTo_inv (run_wrapErr.mp halloc)
      obtain ⟨l, e, m, hl, -, rfl, hge, hcase⟩ := SpaceManager.allocDataBytesUpTo_inv hal
      have htaken : taken ≤ e.size := by
        rcases hcase with ⟨rfl, -⟩ | ⟨hlt, rfl⟩
        · exact le_rfl
        · exact (Nat.div_mul_le_self _ _).trans hlt.le
      have hturn := chunkBlocks_turn hge hsector hlen hcase
      have hpaid : Room (k + chunkBlocks s.sb (data.length - taken) +
          (taken / s.sb.nodeSize + if taken = e.size then 0 else 1)) s := h.mono (by omega)
      have hstored := hpaid.store phys (data.take taken) hl htaken
      dsimp only
      rw [bind_of_ok (a := PUnit.unit) (run_modify.mpr rfl), bind_of_ok (run_get.mpr ⟨rfl, rfl⟩)]
      refine final_bind (fun _ s₂ hinsert => ?_) fun _ s₂ hinsert => ?_
      · have hsb : s₂.sb = s.sb := (insert_effect (run_wrapErr.mp hinsert)).1
        have hkept := (always_step (respects_roomKept.insert trivial)).of_ok hinsert _ hstored
        refine ih (hsb ▸ hsector) ?_
        rw [hsb, List.length_drop]
        exact hkept
      · have hkept := (always_step (respects_roomKept.insert trivial)).of_error hinsert _ hstored
        exact hkept.mono (Nat.le_add_right _ _)
    · obtain ⟨e', hfail, -⟩ := run_wrapErr_error.mp halloc
      rw [allocDataBytesUpTo_error hfail]
      exact h.mono (Nat.le_add_right _ _)

theorem Room.writeExtents {ino generation : Nat} {data : Bytes} (hsector : 0 < s.sb.sectorSize)
    (h : Room (k + dataBlocks s.sb data) s) :
    Room k (final (writeExtents mapBackend ino data generation s)) := by
  have hinsert : ∀ {format d}, RoomKept s (final (step format []
      (mapBackend.cowInsert ⟨ino, typeExtentData, 0⟩ d) s)) :=
    always_step (respects_roomKept.insert trivial) s
  have hstop : Room k s := h.mono (Nat.le_add_right _ _)
  rw [Btrfs.writeExtents]
  split_ifs with hempty hinline hzero
  · exact hinsert k hstop
  · exact hinsert k hstop
  · exact hinsert k hstop
  have hcost : dataBlocks s.sb data = (data.length + s.sb.sectorSize) / s.sb.nodeSize + 2 :=
    if_neg (not_or.mpr ⟨hinline, hzero⟩)
  rw [hcost] at h
  simp only [placeData]
  cases halloc : allocDataBytes mapBackend data.length s with
  | error e s₁ =>
    rw [allocDataBytes_error halloc]
    exact (h.mono (Nat.add_le_add_left (chunkBlocks_le _ _) _)).writeChunks hsector
  | ok r s₁ =>
    obtain ⟨phys, need⟩ := r
    obtain ⟨sm, hal, rfl⟩ := allocDataBytes_inv halloc
    obtain ⟨hneed, l, e, m, hl, -, hle, rfl⟩ := SpaceManager.allocDataBytes_inv hal
    have hround : need / s.sb.nodeSize ≤ (data.length + s.sb.sectorSize) / s.sb.nodeSize := by
      refine Nat.div_le_div_right ?_
      rw [hneed]
      exact (Nat.div_mul_le_self _ _).trans (Nat.sub_le _ _)
    have hpaid : Room (k + (need / s.sb.nodeSize + if need = e.size then 0 else 1)) s :=
      h.mono (by split_ifs <;> omega)
    exact always_step (respects_roomKept.insert trivial) _ k (hpaid.store phys data hl hle)

/-! ## 4. Overwriting -/

theorem Room.overwriteFile {now : Timespec} {ino : Nat} {data : Bytes}
    (hsector : 0 < s.sb.sectorSize) (h : Room (k + dataBlocks s.sb data) s) :
    Room k (final (overwriteFile mapBackend now ino data s)) := by
  have hsb₁ : (freeInodeExtents mapBackend ino s).sb = s.sb := (freeInodeExtents_frame s ino).1
  have h₁ : Room (k + dataBlocks s.sb data) (freeInodeExtents mapBackend ino s) :=
    roomKept_freeInodeExtents ino s _ h
  rw [Btrfs.overwriteFile, bind_of_ok (run_get.mpr ⟨rfl, rfl⟩),
    bind_of_ok (a := PUnit.unit) (run_modify.mpr rfl)]
  have hclear : ∀ format, Always RoomKept (step format []
      (mapBackend.cowDeletePrefix ino typeExtentData)) :=
    fun _ => always_step (respects_roomKept.deletePrefix fun _ => trivial)
  refine final_bind (fun _ s₂ hrun => ?_) fun _ s₂ hrun => ?_
  · have hsb₂ : s₂.sb = s.sb := (deletePrefix_effect (run_wrapErr.mp hrun)).1.trans hsb₁
    have h₂ : Room (k + dataBlocks s₂.sb data) s₂ := by
      rw [hsb₂]
      exact (hclear _).of_ok hrun _ h₁
    have h₃ : ∀ generation, Room k (final (Btrfs.writeExtents mapBackend ino data generation s₂)) :=
      fun _ => h₂.writeExtents (hsb₂ ▸ hsector)
    have hrest : Always RoomKept (do
        ignoreError (editInode mapBackend ino "" "" fun s d => overwritten s.sb now data d)
        mapBackend.updateFsTreeRoot) :=
      Always.bind (always_ignore (respects_roomKept.editInode trivial)) fun _ => roomKept_commit
    refine final_bind (fun _ s₃ hwrite => ?_) fun _ s₃ hwrite => ?_
    · have hs₃ := h₃ ((mapBackend.sb s).generation + 1)
      rw [run_wrapErr.mp hwrite] at hs₃
      exact hrest s₃ k hs₃
    · obtain ⟨e, hfail, -⟩ := run_wrapErr_error.mp hwrite
      have hs₃ := h₃ ((mapBackend.sb s).generation + 1)
      rw [hfail] at hs₃
      exact hs₃
  · exact ((hclear _).of_error hrun _ h₁).mono (Nat.le_add_right _ _)

end Btrfs
