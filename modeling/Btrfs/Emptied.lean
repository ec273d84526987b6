/-
  Btrfs/Emptied.lean
  ==================
  **Trees that lose their last item.**

  A leaf left empty is dropped with its key pointer, and so is every node above it that is
  left without a child.  At the root the rules differ: a root left with one child gives
  way to it, but a root left with none is written out as an internal node without key
  pointers.  That takes a root over a single path, which comes about when an earlier root
  gave way to a child that had only one child itself.  So a history keeps the tree in
  shape as long as no deletion takes the last item from under an internal root.  No order
  of the keys is needed for any of this.
-/
import Btrfs.History
import Btrfs.CowRoom

namespace Btrfs

open Lib LTree

variable {sb : Superblock} {v v' : Vol} {k : Key} {data : Bytes} {ns h : Nat}
  {t : STree Key LeafItem h} {s : STree.Any Key LeafItem}

/-! ## 1. Shapes -/

/-- No node is empty, except a leaf that is the whole tree. -/
def Filled (s : STree.Any Key LeafItem) : Prop := 0 < s.1 → STree.NoEmpty s.1 s.2

theorem Filled.full (hs : Filled s) : STree.Full s.1 s.2 := by
  obtain ⟨h, t⟩ := s
  cases h with
  | zero => trivial
  | succ h => exact (hs (Nat.succ_pos h)).full

/-- A filled tree without items is a leaf. -/
theorem Filled.height_eq_zero (hs : Filled s) (hnil : s.items = []) : s.1 = 0 := by
  by_contra hpos
  obtain ⟨x, hx⟩ := (hs (Nat.pos_of_ne_zero hpos)).exists_item
  rw [STree.Any.items] at hnil
  rw [hnil] at hx
  cases hx

/-- An edit of the routed leaf keeps a tree filled, unless it empties a tree with an internal root. -/
theorem Filled.settle {new : List LeafItem} (hs : Filled ⟨h, t⟩)
    (hne : h = 0 ∨ anyContents (settle ns k new h t) ≠ []) : Filled (settle ns k new h t) := by
  intro hpos
  cases h with
  | zero => exact absurd hpos (not_lt.mpr (settle_size ns k new 0 t).1)
  | succ h =>
    have hold := hs (Nat.succ_pos h)
    rcases hne with hne | hne
    · cases hne
    · exact settle_keeps (P := STree.NoEmpty) hold.2 (hold.edit k new (h + 1) t) hne hpos

theorem leafInsertItem_ne_nil {items new : List LeafItem}
    (h : leafInsertItem ns items k data = .ok new) : new ≠ [] := by
  simp only [leafInsertItem] at h
  split_ifs at h
  simp only [Except.ok.injEq] at h
  rintro rfl
  have hlen := congrArg (fun l => (l.map LeafItem.kv).length) h
  simp only [map_kv_packFrom, List.map_nil, List.length_nil] at hlen
  rw [length_insertIdx_insertPos] at hlen
  cases hlen

/-- An insertion keeps a tree filled. -/
theorem Inserted.filled (hins : Inserted ns k data h t s) (hs : Filled ⟨h, t⟩) : Filled s := by
  cases hins with
  | inPlace new hnew =>
    refine hs.settle (Or.inr ?_)
    rw [anyContents_settle ns k new hs.full]
    intro hnil
    simp only [List.append_eq_nil_iff, List.map_eq_nil_iff] at hnil
    exact leafInsertItem_ne_nil hnew hnil.1.2
  | split l r splitKey hne hsplit =>
    obtain ⟨hl, it, hit, -⟩ := splitAndInsertLeaf_parts hne hsplit
    have hr : r ≠ [] := by
      rintro rfl
      cases hit
    have ht : STree.NoEmpty h t := by
      cases h with
      | zero => exact hne
      | succ h => exact hs (Nat.succ_pos h)
    exact fun _ => ht.grow_cut LeafItem.k ⟨0, 0, 0⟩ (nodeCap ns) k splitKey hl hr

/-- A deletion takes one item. -/
theorem Deleted.length (hdel : Deleted ns k h t s) (hs : Filled ⟨h, t⟩) :
    (anyContents s).length + 1 = (STree.items h t).length := by
  obtain ⟨idx, it, hit, rfl⟩ := hdel
  obtain ⟨hidx, -⟩ := List.getElem?_eq_some_iff.mp hit
  rw [anyContents_settle ns it.k _ hs.full, map_kv_leafDeleteItem, STree.items_eq it.k h t hs.full]
  simp only [List.length_append, List.length_eraseIdx, List.length_map]
  rw [if_pos hidx]
  omega

/-- A filled tree under an internal root that loses all its items is left with an empty root. -/
theorem settle_emptied {kids : List (Key × STree Key LeafItem h)} {new : List LeafItem}
    (hs : STree.NoEmpty (h + 1) (kids : List _))
    (hnil : anyContents (settle ns k new (h + 1) kids) = []) :
    settle ns k new (h + 1) kids = ⟨h + 1, ([] : List _)⟩ := by
  have hmut : anyContents (STree.mutate k new (h + 1) kids) = [] := by
    rcases settle_cases ns k new (h + 1) kids with hc | hc <;> rw [hc] at hnil
    · exact hnil
    · rwa [anyContents_merged] at hnil
  have hno : ∀ {m : Nat} {t' : STree Key LeafItem m}, STree.NoEmpty m t' →
      anyContents ⟨m, t'⟩ ≠ [] := by
    intro m t' ht' hnil'
    obtain ⟨x, hx⟩ := ht'.exists_item
    rw [anyContents, STree.Any.items, List.map_eq_nil_iff] at hnil'
    rw [hnil'] at hx
    cases hx
  rcases STree.mutate_cases k new h kids with ⟨t', he, hm⟩ | ⟨q, hq, -, hm⟩ | ⟨-, hm⟩
  · rw [hm] at hmut
    exact absurd hmut (hno (hs.edit k new (h + 1) kids t' he))
  · rw [hm] at hmut
    exact absurd hmut (hno (hs.2 q hq))
  · rcases settle_cases ns k new (h + 1) kids with hc | hc <;> rw [hc, hm]
    -- there is nothing to merge
    cases h <;> rfl

theorem Deleted.emptied {t : STree Key LeafItem (h + 1)} (hdel : Deleted ns k (h + 1) t s)
    (hs : Filled ⟨h + 1, t⟩) (hone : (STree.items (h + 1) t).length < 2) :
    s = ⟨h + 1, ([] : List _)⟩ := by
  have hlen := hdel.length hs
  have hnil : anyContents s = [] := List.length_eq_zero_iff.mp (by omega)
  obtain ⟨idx, it, hit, rfl⟩ := hdel
  exact settle_emptied (hs (Nat.succ_pos h)) hnil

/-- A deletion keeps a tree filled exactly when the root is a leaf or another item is left. -/
theorem Deleted.filled_iff (hdel : Deleted ns k h t s) (hs : Filled ⟨h, t⟩) :
    Filled s ↔ h = 0 ∨ 2 ≤ (STree.items h t).length := by
  have hlen := hdel.length hs
  constructor
  · intro hfilled
    by_contra hnot
    obtain ⟨hpos, hone⟩ := not_or.mp hnot
    obtain ⟨m, rfl⟩ := Nat.exists_eq_succ_of_ne_zero hpos
    rw [hdel.emptied hs (not_le.mp hone)] at hfilled
    exact (hfilled (Nat.succ_pos m)).1 rfl
  · obtain ⟨idx, it, hit, rfl⟩ := hdel
    rintro (hzero | htwo)
    · exact hs.settle (Or.inl hzero)
    · refine hs.settle (Or.inr fun hnil => ?_)
      rw [hnil] at hlen
      simp only [List.length_nil] at hlen
      omega

/-! ## 2. Histories -/

/-- A tree that came out of an empty leaf by successful insertions and deletions, of any keys; `ok`
    restricts the deletions. -/
inductive TreeHistory (ok : Vol → Nat → Prop) (sb : Superblock) : Nat → Vol → Prop
  | leaf {v : Vol} (b : LeafBlk) (hvol : OnVol sb v (h := 0) b) (hempty : b.items = []) :
      TreeHistory ok sb b.addr v
  | insert {root r : Nat} {v v' : Vol} (k : Key) (data : Bytes) (hist : TreeHistory ok sb root v)
      (hrun : cowInsert sb root k data v = .ok r v') : TreeHistory ok sb r v'
  | delete {root r : Nat} {v v' : Vol} (k : Key) (hist : TreeHistory ok sb root v) (hok : ok v root)
      (hrun : cowDelete sb root k v = .ok r v') : TreeHistory ok sb r v'

/-- What stands at `root` is a tree of uniform height whose internal nodes have a child, a leaf if it
    is without items; and then any item that a leaf can hold can be inserted, given a block. -/
structure InShape (sb : Superblock) (v : Vol) (root : Nat) : Prop where
  tree : ∃ h, ∃ t : LTree h, addr h t = root ∧ OnVol sb v t ∧ STree.Full h (shape h t) ∧
    (items h t = [] → h = 0)
  insert : ∀ (b : LeafBlk), b.addr = root → OnVol sb v (h := 0) b → b.items = [] →
    ∀ k data, nodeHdrSize + itemSize + data.length ≤ sb.nodeSize → 1 ≤ v.sm.blocks →
      ∃ r v', cowInsert sb root k data v = .ok r v'

/-- The tree at `root` is a leaf or has two items. -/
def CanSpareOne (sb : Superblock) (v : Vol) (root : Nat) : Prop :=
  ∃ s, Stands sb v root s ∧ (s.1 = 0 ∨ 2 ≤ s.items.length)

theorem map_eq_of_map_eq {α β γ : Type} {f : α → β} {g : α → γ} : ∀ {l l' : List α},
    l.map f = l'.map f → (∀ a ∈ l, ∀ b ∈ l', f a = f b → g a = g b) → l.map g = l'.map g := by
  intro l
  induction l with
  | nil =>
    intro l' hmap _
    rw [List.map_eq_nil_iff.mp hmap.symm]
  | cons a l ih =>
    intro l' hmap hfg
    cases l' with
    | nil => cases hmap
    | cons b l' =>
      obtain ⟨hab, hrest⟩ := List.cons.inj hmap
      have htail := ih hrest fun x hx y hy => hfg x (List.mem_cons_of_mem _ hx) y (List.mem_cons_of_mem _ hy)
      rw [List.map_cons, List.map_cons, htail, hfg a List.mem_cons_self b List.mem_cons_self hab]

/-- The device determines the tree below an address. -/
theorem held_unique {dev : Device} : ∀ (h : Nat) (t : LTree h) (h' : Nat) (t' : LTree h'),
    Held sb dev h t → Held sb dev h' t' → addr h t = addr h' t' →
    (⟨h, shape h t⟩ : STree.Any Key LeafItem) = ⟨h', shape h' t'⟩ := by
  intro h
  induction h with
  | zero =>
    intro (b : LeafBlk) h' t' ht ht' haddr
    have hread := held_root ht'
    rw [← haddr, held_root ht] at hread
    have hnode : node 0 b = node h' t' := Except.ok.inj hread
    cases h' with
    | zero =>
      have hitems : b.items = LeafBlk.items t' := (Node.leaf.inj hnode).2
      exact congrArg (Sigma.mk 0) hitems
    | succ h' => cases hnode
  | succ h ih =>
    intro (b : NodeBlk (LTree h)) h' t' ht ht' haddr
    have hread := held_root ht'
    rw [← haddr, held_root ht] at hread
    have hnode : node (h + 1) b = node h' t' := Except.ok.inj hread
    cases h' with
    | zero => cases hnode
    | succ h' =>
      obtain ⟨-, rfl, hptrs⟩ := Node.internal.inj hnode
      refine congrArg (Sigma.mk (h + 1)) (map_eq_of_map_eq hptrs ?_)
      intro c hc d hd hptr
      obtain ⟨hsep, hchild, -⟩ := KeyPtr.mk.inj hptr
      have hsub := ih c.sub h d.sub (ht.2 c hc).2 (ht'.2 d hd).2 hchild
      rw [hsep, eq_of_heq (Sigma.mk.inj hsub).2]

theorem Stands.unique {root : Nat} {s' : STree.Any Key LeafItem} (h : Stands sb v root s)
    (h' : Stands sb v root s') : s = s' := by
  obtain ⟨m, t, haddr, ht, rfl⟩ := h.elim
  obtain ⟨m', t', haddr', ht', rfl⟩ := h'.elim
  exact held_unique m t m' t' ht.held ht'.held (haddr.trans haddr'.symm)

/-- An item goes into an empty leaf if it fits. -/
theorem cowInsert_emptyLeaf {b : LeafBlk} (hvol : OnVol sb v (h := 0) b) (hempty : b.items = [])
    (k : Key) (hfit : nodeHdrSize + itemSize + data.length ≤ sb.nodeSize) (hroom : 1 ≤ v.sm.blocks) :
    ∃ r v', cowInsert sb b.addr k data v = .ok r v' := by
  have hleaf : ∃ new, leafInsertItem sb.nodeSize [] k data = .ok new := by
    have hend : dataAreaEnd sb.nodeSize [] = sb.nodeSize := rfl
    simp only [leafInsertItem, hend, List.length_nil]
    rw [if_neg (by omega)]
    exact ⟨_, rfl⟩
  obtain ⟨new, hnew⟩ := hleaf
  have hat : STree.leafAt k 0 (shape 0 b) = [] := hempty
  have htree : TreeOk sb v (h := 0) b := ⟨hvol, trivial⟩
  have hmut : ∃ r v', cowMutate sb b.addr k (fun items => leafInsertItem sb.nodeSize items k data) v =
      .ok r v' ∧ v.sm.blocks ≤ v'.sm.blocks := by
    apply cowMutate_progress htree (Nat.zero_le _) _ hroom
    · exact new
    · rw [hat, hnew]
  obtain ⟨r, v', hrun, -⟩ := hmut
  exact ⟨r, v', by rw [cowInsert, hrun]⟩

theorem inShape_of_filled {root : Nat} (hst : Stands sb v root s) (hs : Filled s) :
    InShape sb v root := by
  obtain ⟨h, t, hroot, ht, rfl⟩ := hst.elim
  refine ⟨⟨h, t, hroot, ht, hs.full, fun hnil => hs.height_eq_zero hnil⟩, ?_⟩
  rintro b rfl hvol hempty k data hfit hroom
  exact cowInsert_emptyLeaf hvol hempty k hfit hroom

/-- A tree with an internal root without key pointers is not in shape. -/
theorem not_inShape_of_read {root m : Nat} {hdr : NodeHdr}
    (hread : readNode sb v.dev root = .ok (.internal hdr m [])) : ¬ InShape sb v root := by
  rintro ⟨⟨h, t, rfl, ht, hfull, -⟩, -⟩
  rw [held_root ht.held] at hread
  cases h with
  | zero => cases hread
  | succ h =>
    have hptrs : (NodeBlk.kids t).map (ptr h) = [] := (Node.internal.inj (Except.ok.inj hread)).2.2
    exact (shape_full_kids hfull).1 (List.map_eq_nil_iff.mp hptrs)

theorem not_inShape_of_emptied {root m : Nat} (hst : Stands sb v root ⟨m + 1, ([] : List _)⟩) :
    ¬ InShape sb v root := by
  obtain ⟨(b : NodeBlk (LTree m)), hroot, hb, hshape⟩ := hst
  have hkids : b.kids = [] := List.map_eq_nil_iff.mp hshape
  have hread := held_root hb.held
  rw [hroot, node, hkids] at hread
  exact not_inShape_of_read hread

/-- After a deletion the tree is in shape exactly when it could spare the item. -/
theorem cowDelete_inShape_iff {root r : Nat} (hst : Stands sb v root s) (hs : Filled s)
    (hrun : cowDelete sb root k v = .ok r v') :
    (∃ s', Stands sb v' r s' ∧ (Filled s' ↔ CanSpareOne sb v root)) ∧
      (InShape sb v' r ↔ CanSpareOne sb v root) := by
  have hspare : CanSpareOne sb v root ↔ s.1 = 0 ∨ 2 ≤ s.items.length := by
    refine ⟨?_, fun hor => ⟨s, hst, hor⟩⟩
    rintro ⟨s', hst', hor⟩
    rwa [hst.unique hst']
  obtain ⟨h, t, rfl, ht, rfl⟩ := hst.elim
  obtain ⟨-, -, s', hst', hdel⟩ := cowDelete_spec ⟨ht, hs.full⟩ hrun
  have hiff := hdel.filled_iff hs
  rw [hspare]
  refine ⟨⟨s', hst', hiff⟩, fun hshape => ?_, fun hor => inShape_of_filled hst' (hiff.mpr hor)⟩
  by_contra hnot
  obtain ⟨hpos, hone⟩ := not_or.mp hnot
  obtain ⟨m, rfl⟩ := Nat.exists_eq_succ_of_ne_zero hpos
  rw [hdel.emptied hs (not_le.mp hone)] at hst'
  exact not_inShape_of_emptied hst' hshape

/-- What every history keeps whose deletions all leave an item or a leaf. -/
theorem TreeHistory.filled {root : Nat} (hist : TreeHistory (CanSpareOne sb) sb root v) :
    ∃ s, Stands sb v root s ∧ Filled s := by
  induction hist with
  | leaf b hvol _ =>
    exact ⟨⟨0, b.items⟩, ⟨b, rfl, hvol, rfl⟩, fun hpos => absurd hpos (Nat.lt_irrefl 0)⟩
  | insert k data _ hrun ih =>
    obtain ⟨s, hst, hs⟩ := ih
    obtain ⟨h, t, rfl, ht, rfl⟩ := hst.elim
    obtain ⟨-, -, s', hst', hins⟩ := cowInsert_spec ⟨ht, hs.full⟩ hrun
    exact ⟨s', hst', hins.filled hs⟩
  | delete k _ hok hrun ih =>
    obtain ⟨s, hst, hs⟩ := ih
    obtain ⟨⟨s', hst', hiff⟩, -⟩ := cowDelete_inShape_iff hst hs hrun
    exact ⟨s', hst', hiff.mpr hok⟩

/-- **No empty internal node.**  After every history whose deletions leave an item or find a leaf at
    the root, the tree is in shape; and the next deletion keeps it so exactly when it does as well. -/
theorem treeHistory_inShape {root : Nat} (hist : TreeHistory (CanSpareOne sb) sb root v) :
    InShape sb v root ∧
      ∀ k r v', cowDelete sb root k v = .ok r v' → (InShape sb v' r ↔ CanSpareOne sb v root) := by
  obtain ⟨s, hst, hs⟩ := hist.filled
  refine ⟨inShape_of_filled hst hs, ?_⟩
  intro k r v' hrun
  exact (cowDelete_inShape_iff hst hs hrun).2

/-! ### Two histories of an empty leaf -/

/-- Where a leaf is read, a tree of height 0 stands. -/
theorem Stands.height_eq_zero {root : Nat} {hdr : NodeHdr} {l : List LeafItem}
    (hst : Stands sb v root s) (hread : readNode sb v.dev root = .ok (.leaf hdr l)) : s.1 = 0 := by
  obtain ⟨h, t, rfl, ht, rfl⟩ := hst.elim
  rw [held_root ht.held] at hread
  cases h with
  | zero => rfl
  | succ h => cases hread

/-- An operation on the small volume; all items are without data. -/
inductive TreeOp
  | insert (n : Nat)
  | delete (n : Nat)
  deriving DecidableEq, Repr

def TreeOp.run (s : Nat × Vol) : TreeOp → EStateM.Result Err Vol Nat
  | .insert n => cowInsert smallSb s.1 ⟨n, 1, 0⟩ [] s.2
  | .delete n => cowDelete smallSb s.1 ⟨n, 1, 0⟩ s.2

/-- The root and the volume after some operations, if all succeed. -/
def afterOps (s : Nat × Vol) : List TreeOp → Option (Nat × Vol)
  | [] => some s
  | o :: ops => if succeeded (o.run s) then afterOps (outcome 0 (o.run s)) ops else none

theorem treeHistory_afterOps {ok : Vol → Nat → Prop} {ops : List TreeOp} {s s' : Nat × Vol}
    (hist : TreeHistory ok smallSb s.1 s.2) (hok : ∀ n, .delete n ∈ ops → ∀ v root, ok v root)
    (h : afterOps s ops = some s') : TreeHistory ok smallSb s'.1 s'.2 := by
  induction ops generalizing s with
  | nil =>
    obtain rfl := Option.some.inj h
    exact hist
  | cons o ops ih =>
    simp only [afterOps] at h
    split_ifs at h with hdone
    refine ih ?_ (fun n hn => hok n (List.mem_cons_of_mem _ hn)) h
    have hrun := eq_ok_of_succeeded 0 hdone
    cases o with
    | insert n => exact hist.insert ⟨n, 1, 0⟩ [] hrun
    | delete n => exact hist.delete ⟨n, 1, 0⟩ (hok n List.mem_cons_self _ _) hrun

/-- An item comes and goes. -/
theorem treeHistory_inShape_gone :
    ∃ s, afterOps (1024, soleVol []) [.insert 1, .delete 1] = some s ∧
      InShape smallSb s.2 s.1 := by
  have hfacts : ∃ s ∈ afterOps (1024, soleVol []) [.insert 1],
      readNode smallSb s.2.dev s.1 = .ok (.leaf ⟨1192, 2⟩ [smallItem 1]) ∧
      succeeded (cowDelete smallSb s.1 ⟨1, 1, 0⟩ s.2) = true ∧
      afterOps (1024, soleVol []) [.insert 1, .delete 1] =
        some (outcome 0 (cowDelete smallSb s.1 ⟨1, 1, 0⟩ s.2)) := by decide +kernel
  obtain ⟨s, hs, hread, hdel, hafter⟩ := hfacts
  have h₀ : TreeHistory (CanSpareOne smallSb) smallSb 1024 (soleVol []) :=
    .leaf (soleLeaf []) (soleLeaf_onVol []) rfl
  have h₁ : TreeHistory (CanSpareOne smallSb) smallSb s.1 s.2 :=
    treeHistory_afterOps (s := (1024, soleVol [])) h₀ (by simp) hs
  obtain ⟨shape, hst, -⟩ := h₁.filled
  have hspare : CanSpareOne smallSb s.2 s.1 := ⟨shape, hst, Or.inl (hst.height_eq_zero hread)⟩
  exact ⟨_, hafter,
    (treeHistory_inShape (h₁.delete ⟨1, 1, 0⟩ hspare (eq_ok_of_succeeded 0 hdel))).1⟩

/-- Four items make a tree of height 2 whose first node has a single leaf. -/
def emptyingOps : List TreeOp :=
  [.insert 1, .insert 2, .insert 3, .insert 4, .delete 2, .delete 3, .delete 4, .delete 1]

/-- Without its second node the first one becomes the root, and without the last item it has no
    child.  Then no key can be inserted. -/
theorem treeHistory_emptyRoot : ∃ s, afterOps (1024, soleVol []) emptyingOps = some s ∧
    TreeHistory (fun _ _ => True) smallSb s.1 s.2 ∧
    readNode smallSb s.2.dev s.1 = .ok (.internal ⟨1024, 2⟩ 0 []) ∧ 1 ≤ s.2.sm.blocks ∧
    succeeded (cowInsert smallSb s.1 ⟨1, 1, 0⟩ [] s.2) = false ∧ ¬ InShape smallSb s.2 s.1 := by
  have hfacts : ∃ s ∈ afterOps (1024, soleVol []) emptyingOps,
      readNode smallSb s.2.dev s.1 = .ok (.internal ⟨1024, 2⟩ 0 []) ∧ 1 ≤ s.2.sm.blocks ∧
      succeeded (cowInsert smallSb s.1 ⟨1, 1, 0⟩ [] s.2) = false := by decide +kernel
  obtain ⟨s, hs, hread, hroom, hfails⟩ := hfacts
  have h₀ : TreeHistory (fun _ _ => True) smallSb 1024 (soleVol []) :=
    .leaf (soleLeaf []) (soleLeaf_onVol []) rfl
  have hist := treeHistory_afterOps (s := (1024, soleVol [])) h₀ (fun _ _ _ _ => trivial) hs
  exact ⟨s, hs, hist, hread, hroom, hfails, not_inShape_of_read hread⟩

end Btrfs
