/-
  Btrfs/ExtentBuild.lean
  ======================
  **The tree the extent-tree builder writes** — it is a search tree on the device, and it
  describes itself.

  The builder writes a list of blocks, level by level.  A forest is the list of the trees
  that the blocks of one level root; one more level groups its trees under new nodes, in
  order, until one tree is left.  The nodes of that tree are the blocks that were written,
  each once, so what the candidate's records say of the blocks they say of the tree.  The
  device holds the tree because the blocks are apart; the writes that follow it, of the
  ROOT_ITEM's leaf and of the superblock, must stay clear of them.
-/
import Btrfs.ExtentSizing
import Btrfs.LeafSpec
import Btrfs.Search

namespace Btrfs

open Lib SpaceManager LTree

variable {sb : Superblock} {dev : Device}

/-! ## 1. The nodes of a located tree -/

namespace LTree

/-- The nodes with their addresses, each before those below it. -/
def nodes : (h : Nat) → LTree h → List (Nat × Node)
  | 0, (b : LeafBlk) => [(b.addr, .leaf b.hdr b.items)]
  | h + 1, (b : NodeBlk (LTree h)) =>
    (b.addr, .internal b.hdr h (b.kids.map (ptr h))) :: b.kids.flatMap fun c => nodes h c.sub

/-- The address and the level of each node. -/
def levelled (h : Nat) (t : LTree h) : List (Nat × Nat) := (nodes h t).map fun p => (p.1, p.2.level)

/-- Each internal node has a child, and at most `cap` of them. -/
def Fans (cap : Nat) : (h : Nat) → LTree h → Prop
  | 0, _ => True
  | h + 1, (b : NodeBlk (LTree h)) =>
    (1 ≤ b.kids.length ∧ b.kids.length ≤ cap) ∧ ∀ c ∈ b.kids, Fans cap h c.sub

theorem fst_nodes : ∀ (h : Nat) (t : LTree h), (nodes h t).map Prod.fst = nodeAddrs h t := by
  intro h
  induction h with
  | zero => intro t; rfl
  | succ h ih =>
    intro (b : NodeBlk (LTree h))
    simp only [nodes, nodeAddrs, List.map_cons, List.map_flatMap, ih]

theorem fst_levelled (h : Nat) (t : LTree h) : (levelled h t).map Prod.fst = nodeAddrs h t := by
  rw [levelled, List.map_map, ← fst_nodes]
  rfl

/-- A tree is on the device when each of its nodes is. -/
theorem held_of_nodes : ∀ (h : Nat) (t : LTree h),
    (∀ p ∈ nodes h t, p.1 ≠ 0 ∧ readNode sb dev p.1 = .ok p.2) → Held sb dev h t := by
  intro h
  induction h with
  | zero =>
    intro (b : LeafBlk) hall
    exact (hall (b.addr, .leaf b.hdr b.items) (List.mem_singleton.mpr rfl)).2
  | succ h ih =>
    intro (b : NodeBlk (LTree h)) hall
    obtain ⟨hroot, hrest⟩ := List.forall_mem_cons.mp hall
    refine ⟨hroot.2, fun c hc => ?_⟩
    have hsub : ∀ p ∈ nodes h c.sub, p.1 ≠ 0 ∧ readNode sb dev p.1 = .ok p.2 :=
      fun p hp => hrest p (List.mem_flatMap.mpr ⟨c, hc, hp⟩)
    refine ⟨?_, ih c.sub hsub⟩
    cases h with
    | zero => exact (hsub _ (List.mem_singleton.mpr rfl)).1
    | succ h => exact (hsub _ List.mem_cons_self).1

theorem disjoint_foot {S : Set Nat} {h : Nat} {t : LTree h}
    (hall : ∀ a ∈ nodeAddrs h t, Disjoint S (blk sb a)) : Disjoint S (foot sb h t) := by
  rw [Set.disjoint_left]
  intro p hp hfoot
  obtain ⟨a, ha, hpa⟩ := (mem_foot_iff h t p).mp hfoot
  exact Set.disjoint_left.mp (hall a ha) hp hpa

/-- Nodes whose blocks are pairwise disjoint do not overlap. -/
theorem apart_of_nodeAddrs : ∀ (h : Nat) (t : LTree h),
    (nodeAddrs h t).Pairwise (fun a b => Disjoint (blk sb a) (blk sb b)) → Apart sb h t := by
  intro h
  induction h with
  | zero => intro t _; trivial
  | succ h ih =>
    intro (b : NodeBlk (LTree h)) hpw
    obtain ⟨hroot, hrest⟩ := List.pairwise_cons.mp hpw
    obtain ⟨hin, hacross⟩ := List.pairwise_flatMap.mp hrest
    constructor
    · refine hacross.imp fun {c d} hcd => disjoint_foot fun a ha => ?_
      exact (disjoint_foot fun a' ha' => (hcd a' ha' a ha).symm).symm
    · intro c hc
      exact ⟨disjoint_foot fun a ha => hroot a (List.mem_flatMap.mpr ⟨c, hc, ha⟩),
        ih c.sub (hin c hc)⟩

end LTree

/-! ## 2. Writing a list of blocks -/

/-- Write each node at the place of its address. -/
def writeAll (sb : Superblock) (dev : Device) (plan : List (Nat × Node)) : Device :=
  plan.foldl (fun dev p => writeNodeAtPhys sb dev (sb.physFromLog p.1) p.2) dev

theorem writeAll_append (plan plan' : List (Nat × Node)) :
    writeAll sb dev (plan ++ plan') = writeAll sb (writeAll sb dev plan) plan' := List.foldl_append

theorem writeAll_frame {a : Nat} : ∀ (plan : List (Nat × Node)) (dev : Device),
    (∀ p ∈ plan, Disjoint (blk sb p.1) (blk sb a)) →
      readNode sb (writeAll sb dev plan) a = readNode sb dev a := by
  intro plan
  induction plan with
  | nil => intro dev _; rfl
  | cons p plan ih =>
    intro dev hall
    obtain ⟨hp, hrest⟩ := List.forall_mem_cons.mp hall
    have hstep : writeAll sb dev (p :: plan) =
        writeAll sb (writeNodeAtPhys sb dev (sb.physFromLog p.1) p.2) plan := rfl
    rw [hstep, ih _ hrest]
    exact readNode_cons_of_disjoint hp

/-- Blocks that do not overlap are read back as they were written. -/
theorem readNode_writeAll (hns : 0 < sb.nodeSize) : ∀ (plan : List (Nat × Node)) (dev : Device),
    plan.Pairwise (fun p q => Disjoint (blk sb p.1) (blk sb q.1)) →
    (∀ p ∈ plan, sb.physAddr p.1 = .ok (sb.physFromLog p.1)) →
      ∀ p ∈ plan, readNode sb (writeAll sb dev plan) p.1 = .ok p.2 := by
  intro plan
  induction plan with
  | nil => intro dev _ _ p hp; cases hp
  | cons q plan ih =>
    intro dev hpw hmap p hp
    obtain ⟨hq, hpw⟩ := List.pairwise_cons.mp hpw
    obtain ⟨hmapq, hmap⟩ := List.forall_mem_cons.mp hmap
    have hstep : writeAll sb dev (q :: plan) =
        writeAll sb (writeNodeAtPhys sb dev (sb.physFromLog q.1) q.2) plan := rfl
    rw [hstep]
    rcases List.mem_cons.mp hp with rfl | hp
    · rw [writeAll_frame plan _ fun q' hq' => (hq q' hq').symm]
      exact readNode_writeNodeAtPhys hns hmapq _
    · exact ih _ hpw hmap p hp

/-! ## 3. One more level -/

/-- How a parent lists a child. -/
def Kid.ref {h : Nat} (c : Kid (LTree h)) : ChildRef := (c.sep, addr h c.sub)

/-- The trees over consecutive shares of a forest, with their roots at `logs`. -/
def raise (sb : Superblock) (h : Nat) (F : List (Kid (LTree h))) (logs : List Nat) :
    List (Kid (LTree (h + 1))) :=
  ((shareOut logs.length F).zip logs).map fun g =>
    ⟨((g.1.map Kid.ref).head?.map Prod.fst).getD ⟨0, 0, 0⟩, sb.generation + 1,
      (⟨g.2, ⟨g.2, sb.generation + 1⟩, g.1⟩ : NodeBlk (LTree h))⟩

/-- The blocks of one level. -/
def levelPlan (sb : Superblock) (lvl : Nat) (groups : List (List ChildRef × Nat)) :
    List (Nat × Node) :=
  groups.map fun g => (g.2, .internal ⟨g.2, sb.generation + 1⟩ lvl
    (g.1.map fun c => ⟨c.1, c.2, sb.generation + 1⟩))

theorem writeExtentNodes_eq (lvl : Nat) : ∀ (groups : List (List ChildRef × Nat)) (v : Vol),
    writeExtentNodes sb lvl groups v =
      .ok (groups.map fun g => ((g.1.head?.map Prod.fst).getD ⟨0, 0, 0⟩, g.2))
        { v with dev := writeAll sb v.dev (levelPlan sb lvl groups) } := by
  intro groups
  induction groups with
  | nil => intro v; rfl
  | cons g groups ih =>
    intro v
    rw [writeExtentNodes]
    simp only [bind_of_ok (ih _)]
    rfl

/-- What the trees of one level have to be for the next one. -/
structure ForestOk (sb : Superblock) {h : Nat} (F : List (Kid (LTree h))) : Prop where
  gens : ∀ c ∈ F, c.gen = sb.generation + 1
  ordered : STree.Ordered LeafItem.k (h + 1)
    (F.map fun c => (c.sep, shape h c.sub) : List (Key × STree Key LeafItem h))
  full : ∀ c ∈ F, STree.Full h (shape h c.sub)
  fans : ∀ c ∈ F, Fans (internalCapacity sb) h c.sub

section raise

variable {h : Nat} {F : List (Kid (LTree h))} {logs : List Nat}

theorem length_raise : (raise sb h F logs).length = logs.length := by
  rw [raise, List.length_map, List.length_zip, length_shareOut, Nat.min_self]

theorem zip_shareOut_fst : ((shareOut logs.length F).zip logs).map Prod.fst =
    shareOut logs.length F :=
  List.map_fst_zip (length_shareOut _ _).le

theorem zip_shareOut_snd : ((shareOut logs.length F).zip logs).map Prod.snd = logs :=
  List.map_snd_zip (length_shareOut _ _).ge

/-- The level's writes and the references it returns are those of the raised forest. -/
theorem raise_ref (sb : Superblock) :
    (raise sb h F logs).map Kid.ref =
      ((shareOut logs.length (F.map Kid.ref)).zip logs).map fun g =>
        ((g.1.head?.map Prod.fst).getD ⟨0, 0, 0⟩, g.2) := by
  rw [shareOut_map, List.zip_map_left, raise, List.map_map, List.map_map]
  rfl

theorem addrs_raise (sb : Superblock) :
    (raise sb h F logs).map (fun c => addr (h + 1) c.sub) = logs := by
  rw [raise, List.map_map]
  exact zip_shareOut_snd

theorem mem_of_mem_zip {g : List (Kid (LTree h)) × Nat} (hlogs : 0 < logs.length)
    (hg : g ∈ (shareOut logs.length F).zip logs) : ∀ c ∈ g.1, c ∈ F := by
  intro c hc
  rw [← flatten_shareOut logs.length F hlogs]
  exact List.mem_flatten.mpr ⟨g.1, (List.of_mem_zip hg).1, hc⟩

/-- What holds of the children one by one, taken share by share. -/
theorem flatMap_shares {β : Type} (f : Kid (LTree h) → List β) (hlogs : 0 < logs.length) :
    ((shareOut logs.length F).zip logs).flatMap (fun g => g.1.flatMap f) = F.flatMap f := by
  have hmap : ((shareOut logs.length F).zip logs).flatMap (fun g => g.1.flatMap f) =
      (((shareOut logs.length F).zip logs).map Prod.fst).flatMap fun g => g.flatMap f :=
    (List.flatMap_map ..).symm
  rw [hmap, zip_shareOut_fst, ← List.flatMap_assoc, List.flatMap_id', flatten_shareOut _ _ hlogs]

/-- The nodes of the raised forest are those of the forest and the level's own. -/
theorem nodes_raise (hF : ForestOk sb F) (hlogs : 0 < logs.length) :
    ((raise sb h F logs).flatMap fun c => nodes (h + 1) c.sub).Perm
      ((F.flatMap fun c => nodes h c.sub) ++
        levelPlan sb h ((shareOut logs.length (F.map Kid.ref)).zip logs)) := by
  have hplan : levelPlan sb h ((shareOut logs.length (F.map Kid.ref)).zip logs) =
      ((shareOut logs.length F).zip logs).map fun g =>
        (g.2, Node.internal ⟨g.2, sb.generation + 1⟩ h (g.1.map (ptr h))) := by
    rw [levelPlan, shareOut_map, List.zip_map_left, List.map_map]
    refine List.map_congr_left fun g hg => ?_
    have hptrs : (g.1.map Kid.ref).map (fun c => (⟨c.1, c.2, sb.generation + 1⟩ : KeyPtr)) =
        g.1.map (ptr h) := by
      rw [List.map_map]
      refine List.map_congr_left fun c hc => ?_
      simp only [Function.comp_apply, Kid.ref, ptr, hF.gens c (mem_of_mem_zip hlogs hg c hc)]
    change (g.2, Node.internal _ h ((g.1.map Kid.ref).map _)) = _
    rw [hptrs]
    rfl
  rw [hplan, ← flatMap_shares (fun c => nodes h c.sub) hlogs, raise, List.flatMap_map]
  exact (List.map_append_flatMap_perm _ _ _).symm.trans List.perm_append_comm

theorem items_raise (hlogs : 0 < logs.length) :
    ((raise sb h F logs).flatMap fun c => items (h + 1) c.sub) = F.flatMap fun c => items h c.sub := by
  rw [raise, List.flatMap_map, ← flatMap_shares (fun c => items h c.sub) hlogs]
  refine List.flatMap_congr fun g _ => ?_
  simp only [items, shape, STree.items, List.flatMap_map]

/-- One more level of nodes, neither empty nor overfull, over a sound forest is a sound forest. -/
theorem ForestOk.raise (hF : ForestOk sb F) (hlow : logs.length ≤ F.length)
    (hhigh : F.length ≤ logs.length * internalCapacity sb) (hlogs : 0 < logs.length) :
    ForestOk sb (raise sb h F logs) := by
  have hbounds := shareOut_bounds logs.length F hlow hhigh
  have hmem : ∀ c ∈ Btrfs.raise sb h F logs, ∃ g ∈ (shareOut logs.length F).zip logs,
      c.gen = sb.generation + 1 ∧ c.sub = (⟨g.2, ⟨g.2, sb.generation + 1⟩, g.1⟩ : NodeBlk (LTree h)) := by
    intro c hc
    obtain ⟨g, hg, rfl⟩ := List.mem_map.mp hc
    exact ⟨g, hg, rfl, rfl⟩
  refine ⟨?_, ?_, ?_, ?_⟩
  · intro c hc
    obtain ⟨g, -, hgen, -⟩ := hmem c hc
    exact hgen
  · -- the shapes of the shares, each under the separator of its first child
    have hshape : ((Btrfs.raise sb h F logs).map fun c => (c.sep, shape (h + 1) c.sub)) =
        ((shareOut logs.length F).map (List.map fun c => (c.sep, shape h c.sub))).map fun g =>
          (STree.headSep (⟨0, 0, 0⟩ : Key) g, g) := by
      have hfst : shareOut logs.length F = ((shareOut logs.length F).zip logs).map Prod.fst :=
        zip_shareOut_fst.symm
      rw [hfst, Btrfs.raise, List.map_map, List.map_map, List.map_map]
      refine List.map_congr_left fun g _ => ?_
      simp only [Function.comp_apply, STree.headSep, shape, List.head?_map, Option.map_map]
      rfl
    rw [hshape]
    refine STree.Ordered.regroup _ ?_ ?_
    · rw [← List.map_flatten, flatten_shareOut _ _ hlogs]
      exact hF.ordered
    · intro g hg hnil
      obtain ⟨g', hg', rfl⟩ := List.mem_map.mp hg
      have hlen := (hbounds g' hg').1
      simp [List.map_eq_nil_iff.mp hnil] at hlen
  · intro c hc
    obtain ⟨g, hg, -, hsub⟩ := hmem c hc
    rw [hsub]
    have hlen := (hbounds g.1 (List.of_mem_zip hg).1).1
    constructor
    · intro hnil
      have hkids : g.1 = [] := List.map_eq_nil_iff.mp hnil
      simp [hkids] at hlen
    · intro p hp
      obtain ⟨c', hc', rfl⟩ := List.mem_map.mp hp
      exact hF.full c' (mem_of_mem_zip hlogs hg c' hc')
  · intro c hc
    obtain ⟨g, hg, -, hsub⟩ := hmem c hc
    rw [hsub]
    exact ⟨hbounds g.1 (List.of_mem_zip hg).1, fun c' hc' => hF.fans c' (mem_of_mem_zip hlogs hg c' hc')⟩

end raise

/-! ## 4. All the levels -/

/-- The levels of the nodes at `logs`, the first list of them at level `lvl + 1`. -/
def logLevels (lvl : Nat) (logs : List (List Nat)) : List (Nat × Nat) :=
  ((logs.zipIdx lvl).map fun l => l.1.map (·, l.2 + 1)).flatten

theorem logLevels_cons (lvl : Nat) (first : List Nat) (logs : List (List Nat)) :
    logLevels lvl (first :: logs) = first.map (·, lvl + 1) ++ logLevels (lvl + 1) logs := by
  rw [logLevels, List.zipIdx_cons, List.map_cons, List.flatten_cons]
  rfl

/-- The root over a forest: the first node of the last level, or the only tree there is. -/
def rootOver {h : Nat} (F : List (Kid (LTree h))) (logs : List (List Nat)) : Nat :=
  match logs.getLast? with
  | none => (F.map fun c => addr h c.sub).headD 0
  | some top => top.headD 0

theorem rootOver_raise {h : Nat} (F : List (Kid (LTree h))) (first : List Nat)
    (logs : List (List Nat)) : rootOver (raise sb h F first) logs = rootOver F (first :: logs) := by
  cases logs with
  | nil =>
    change (List.map _ (raise sb h F first)).headD 0 = first.headD 0
    rw [addrs_raise]
  | cons second logs =>
    simp only [rootOver, List.getLast?_cons_cons]
    cases htop : (second :: logs).getLast? with
    | none => simp at htop
    | some top => rfl

theorem levels_levelPlan {lvl : Nat} {groups : List (List ChildRef)} {logs : List Nat}
    (hlen : logs.length ≤ groups.length) :
    (levelPlan sb lvl (groups.zip logs)).map (fun p => (p.1, p.2.level)) = logs.map (·, lvl + 1) := by
  conv_rhs => rw [← List.map_snd_zip hlen, List.map_map]
  rw [levelPlan, List.map_map]
  rfl

/-- A tree of height `h'` over the forest `F`: its nodes are those of `F` and the blocks `up`. -/
structure Crowns (sb : Superblock) {h : Nat} (F : List (Kid (LTree h))) (logs : List (List Nat))
    (up : List (Nat × Node)) (h' : Nat) (t : LTree h') : Prop where
  height : h' = h + logs.length
  root : addr h' t = rootOver F logs
  nodes_perm : (nodes h' t).Perm ((F.flatMap fun c => nodes h c.sub) ++ up)
  levels : up.map (fun p => (p.1, p.2.level)) = logLevels h logs
  items_eq : items h' t = F.flatMap fun c => items h c.sub
  ordered : STree.Ordered LeafItem.k h' (shape h' t)
  full : STree.Full h' (shape h' t)
  fans : Fans (internalCapacity sb) h' t

theorem writeExtentLevels_ok (hicap : 2 ≤ internalCapacity sb) :
    ∀ (logs : List (List Nat)) (h : Nat) (F : List (Kid (LTree h))) (levels : List Nat) (v v' : Vol),
      0 < F.length → levels = levelSizes (internalCapacity sb) F.length →
      logs.map List.length = levels → ForestOk sb F →
      writeExtentLevels sb h levels logs (F.map Kid.ref) v = .ok () v' →
        ∃ up h', ∃ t : LTree h', v' = { v with dev := writeAll sb v.dev up } ∧
          Crowns sb F logs up h' t := by
  intro logs
  induction logs with
  | nil =>
    intro h F levels v v' hpos hlevels hlens hF hrun
    obtain rfl : levels = [] := hlens.symm
    obtain ⟨-, rfl⟩ := run_pure.mp hrun
    -- no level is needed over a forest only if it is a single tree
    have hone : F.length = 1 := by
      by_contra hne
      rw [levelSizes_of_one_lt hicap (by omega)] at hlevels
      cases hlevels
    obtain ⟨c, rfl⟩ := List.length_eq_one_iff.mp hone
    refine ⟨[], h, c.sub, rfl, rfl, rfl, by simp, rfl, by simp, ?_, ?_, ?_⟩
    · exact (hF.ordered.2 _ List.mem_cons_self).1
    · exact hF.full c List.mem_cons_self
    · exact hF.fans c List.mem_cons_self
  | cons first logs ih =>
    intro h F levels v v' hpos hlevels hlens hF hrun
    have hmany : 1 < F.length := by
      by_contra hle
      rw [levelSizes_of_le_one (not_lt.mp hle)] at hlevels
      rw [hlevels] at hlens
      cases hlens
    rw [levelSizes_of_one_lt hicap hmany] at hlevels
    have hn := hlens.trans hlevels
    rw [List.map_cons, List.cons.injEq] at hn
    obtain ⟨hfirst, hrest⟩ := hn
    have hfpos : 0 < first.length := hfirst ▸ ceil_pos hicap hpos
    have hlow : first.length ≤ F.length := hfirst ▸ (ceil_lt hicap hmany).le
    have hhigh : F.length ≤ first.length * internalCapacity sb := hfirst ▸ le_ceil_mul hicap F.length
    rw [← hfirst] at hlevels hrest
    rw [hlevels, writeExtentLevels] at hrun
    simp only [List.headD_cons, ne_eq, not_true_eq_false, ↓reduceIte, List.tail_cons] at hrun
    rw [bind_of_ok (writeExtentNodes_eq h _ v), ← raise_ref sb] at hrun
    obtain ⟨up, h', t, hv, hcrown⟩ := ih (h + 1) (raise sb h F first) _ _ v'
      (by rwa [length_raise]) (by rw [length_raise]) hrest (hF.raise hlow hhigh hfpos) hrun
    refine ⟨levelPlan sb h ((shareOut first.length (F.map Kid.ref)).zip first) ++ up, h', t, ?_, ?_⟩
    · rw [hv, writeAll_append]
    · refine ⟨?_, ?_, ?_, ?_, ?_, hcrown.ordered, hcrown.full, hcrown.fans⟩
      · rw [hcrown.height, List.length_cons]
        omega
      · rw [hcrown.root, rootOver_raise]
      · rw [← List.append_assoc]
        exact hcrown.nodes_perm.trans ((nodes_raise hF hfpos).append_right up)
      · rw [List.map_append, hcrown.levels, logLevels_cons, levels_levelPlan]
        exact (length_shareOut _ _).ge
      · rw [hcrown.items_eq, items_raise hfpos]

/-! ## 5. The leaves -/

/-- The items of a leaf of the new tree. -/
def leafItemsOf (sb : Superblock) (recs : List ItemRec) : List LeafItem :=
  match extentLeafItems sb recs with
  | .ok items => items
  | .error _ => []

theorem orderedInsert_last {r : ItemRec} : ∀ {l : List ItemRec}, (∀ q ∈ l, q.1 < r.1) →
    l.orderedInsert keyLE r = l ++ [r] := by
  intro l
  induction l with
  | nil => intro _; rfl
  | cons q l ih =>
    intro hall
    obtain ⟨hq, hall⟩ := List.forall_mem_cons.mp hall
    have hnot : ¬ keyLE r q := not_le.mpr hq
    rw [List.orderedInsert_cons, if_neg hnot, ih hall, List.cons_append]

/-- Records inserted in the order of their keys stay in that order. -/
theorem map_kv_extentLeafItems {recs : List ItemRec} {items : List LeafItem}
    (hs : recs.Pairwise fun a b => a.1 < b.1) (h : extentLeafItems sb recs = .ok items) :
    items.map LeafItem.kv = recs := by
  have hfold : ∀ (recs : List ItemRec) (start items : List LeafItem),
      (start.map LeafItem.kv ++ recs).Pairwise (fun a b => a.1 < b.1) →
      recs.foldlM (fun items r => leafInsertItem sb.nodeSize items r.1 r.2) start = .ok items →
      items.map LeafItem.kv = start.map LeafItem.kv ++ recs := by
    intro recs
    induction recs with
    | nil =>
      intro start items _ h
      cases h
      exact (List.append_nil _).symm
    | cons r recs ih =>
      intro start items hpw h
      obtain ⟨next, hins, hrest⟩ := foldlM_cons_eq_ok.mp h
      have hbelow : ∀ q ∈ start.map LeafItem.kv, q.1 < r.1 := fun q hq =>
        (List.pairwise_append.mp hpw).2.2 q hq r List.mem_cons_self
      have habs : ∀ it ∈ start, it.k ≠ r.1 := fun it hit =>
        (hbelow it.kv (List.mem_map_of_mem hit)).ne
      have hnext : next.map LeafItem.kv = start.map LeafItem.kv ++ [r] := by
        rw [leafInsertItem_ok habs hins]
        exact orderedInsert_last hbelow
      have hassoc : start.map LeafItem.kv ++ r :: recs = next.map LeafItem.kv ++ recs := by
        rw [hnext, List.append_assoc, List.singleton_append]
      rw [hassoc] at hpw ⊢
      exact ih next items hpw hrest
  simpa using hfold recs [] items (by simpa using hs) h

/-- The blocks of the leaves. -/
def leafPlan (sb : Superblock) (leaves : List (List ItemRec × Nat)) : List (Nat × Node) :=
  leaves.map fun l => (l.2, .leaf ⟨l.2, sb.generation + 1⟩ (leafItemsOf sb l.1))

/-- The leaves as trees, each under its first key. -/
def leafForest (sb : Superblock) (leaves : List (List ItemRec × Nat)) : List (Kid (LTree 0)) :=
  leaves.map fun l => ⟨firstKey l.1, sb.generation + 1,
    (⟨l.2, ⟨l.2, sb.generation + 1⟩, leafItemsOf sb l.1⟩ : LeafBlk)⟩

theorem writeExtentLeaves_ok : ∀ (leaves : List (List ItemRec × Nat)) (i : Nat) (v v' : Vol),
    writeExtentLeaves sb i leaves v = .ok () v' →
      (∀ l ∈ leaves, extentLeafItems sb l.1 = .ok (leafItemsOf sb l.1)) ∧
      v' = { v with dev := writeAll sb v.dev (leafPlan sb leaves) } := by
  intro leaves
  induction leaves with
  | nil =>
    intro i v v' h
    obtain ⟨-, rfl⟩ := run_pure.mp h
    exact ⟨nofun, rfl⟩
  | cons l leaves ih =>
    intro i v v' h
    rw [writeExtentLeaves] at h
    cases hitems : extentLeafItems sb l.1 with
    | error e => simp [hitems] at h
    | ok items =>
      have hof : leafItemsOf sb l.1 = items := by rw [leafItemsOf, hitems]
      simp only [hitems] at h
      rw [← hof] at h hitems
      obtain ⟨hall, hv⟩ := ih _ _ _ h
      exact ⟨List.forall_mem_cons.mpr ⟨hitems, hall⟩, hv⟩

section leaves

variable {leaves : List (List ItemRec × Nat)}

theorem leafForest_ref : (leafForest sb leaves).map Kid.ref =
    leaves.map fun l => (firstKey l.1, l.2) := by
  rw [leafForest, List.map_map]
  rfl

theorem nodes_leafForest : ((leafForest sb leaves).flatMap fun c => nodes 0 c.sub) =
    leafPlan sb leaves := by
  rw [leafForest, leafPlan, List.flatMap_map]
  exact List.map_eq_flatMap.symm

theorem kv_leafForest (hitems : ∀ l ∈ leaves, (leafItemsOf sb l.1).map LeafItem.kv = l.1) :
    ((leafForest sb leaves).flatMap fun c => items 0 c.sub).map LeafItem.kv =
      (leaves.map Prod.fst).flatten := by
  rw [leafForest, List.flatMap_map, List.map_flatMap, ← List.flatMap_id', List.flatMap_map]
  exact List.flatMap_congr hitems

theorem leafForest_ok (hitems : ∀ l ∈ leaves, (leafItemsOf sb l.1).map LeafItem.kv = l.1)
    (hne : ∀ l ∈ leaves, l.1 ≠ [])
    (hs : (leaves.map Prod.fst).flatten.Pairwise fun a b => a.1 < b.1) :
    ForestOk sb (leafForest sb leaves) := by
  refine ⟨?_, ?_, ?_, ?_⟩
  · intro c hc
    obtain ⟨l, -, rfl⟩ := List.mem_map.mp hc
    rfl
  · let sep : List LeafItem → Key := fun g => (g.head?.map LeafItem.k).getD ⟨0, 0, 0⟩
    have hshape : ((leafForest sb leaves).map fun c => (c.sep, shape 0 c.sub)) =
        (leaves.map fun l => leafItemsOf sb l.1).map fun g => (sep g, g) := by
      rw [leafForest, List.map_map, List.map_map]
      refine List.map_congr_left fun l hl => ?_
      have hkey : firstKey l.1 = sep (leafItemsOf sb l.1) := by
        rw [firstKey]
        conv_lhs => rw [← hitems l hl]
        simp only [sep, List.head?_map, Option.map_map]
        rfl
      simp only [Function.comp_apply, hkey]
      rfl
    rw [hshape]
    refine STree.Ordered.ofLeaves sep ?_ ?_
    · have hflat : ((leaves.map fun l => leafItemsOf sb l.1).flatten).map LeafItem.kv =
          (leaves.map Prod.fst).flatten := by
        rw [List.map_flatten, List.map_map]
        exact congrArg List.flatten (List.map_congr_left hitems)
      rw [← hflat, List.pairwise_map] at hs
      exact hs
    · intro g hg
      obtain ⟨l, hl, rfl⟩ := List.mem_map.mp hg
      cases hcase : leafItemsOf sb l.1 with
      | nil =>
        have hnil := hitems l hl
        rw [hcase] at hnil
        exact absurd hnil.symm (hne l hl)
      | cons x r => exact ⟨x, r, rfl, rfl⟩
  · intro c _
    trivial
  · intro c _
    trivial

end leaves

end Btrfs
