/-
  Btrfs/Search.lean
  =================
  **Searches on a tree of the device.**

  `searchTree` follows one path and gives up where the key is smaller than every
  separator; `walkPrefixLeaves` and `findLeafContainingPrefix` keep a stack of subtrees
  still to visit.  On a held tree each of them computes a function of the search tree
  (`lookup`, `prefixItems`), and on an ordered tree that function is the plain search
  through the in-order list.
-/
import Btrfs.Lib.SearchOrder
import Btrfs.Walk

namespace Btrfs

open Lib LTree

variable {sb : Superblock} {dev : Device} {k : Key} {objID typ : Nat}

/-! ## 1. Looking up one key -/

/-- The search of `searchTree`, on the search tree. -/
def lookup (k : Key) : (h : Nat) → STree Key LeafItem h → Option LeafItem
  | 0, (l : List LeafItem) => l.find? fun it => decide (it.k = k)
  | h + 1, (kids : List (Key × STree Key LeafItem h)) =>
    match focus Prod.fst k kids with
    | none => none
    | some (_, p, _) => if p.1 ≤ k then lookup k h p.2 else none

/-- What `searchTree` makes of the answer. -/
def found (k : Key) : Option LeafItem → Except Err LeafItem
  | some it => .ok it
  | none => .error (errKeyNotFound k)

/-- The last pointer of the leading run, when there is one, is the routed one. -/
theorem getLast?_ptrRun {h : Nat} {kids A B : List (Kid (LTree h))} {c : Kid (LTree h)}
    (hf : focus Kid.sep k kids = some (A, c, B)) :
    (ptrRun (kids.map (ptr h)) k).getLast? = if c.sep ≤ k then some (ptr h c) else none := by
  have hmap : focus KeyPtr.k k (kids.map (ptr h)) = some (A.map (ptr h), ptr h c, B.map (ptr h)) :=
    focus_map (ptr h) KeyPtr.k (fun _ => rfl) hf
  rw [ptrRun_eq]
  exact getLast?_run hmap

theorem searchFrom_held (hns : 0 < sb.nodeSize) (k : Key) :
    ∀ (h : Nat) (t : LTree h) (d : Nat) (seen : List Nat) (prevLevel : Option Nat),
      Held sb dev h t → Apart sb h t → STree.Full h (shape h t) → Unseen sb seen t → h < d →
      (∀ l ∈ prevLevel, h + 1 = l) →
      searchFrom sb dev k d seen prevLevel (addr h t) = found k (lookup k h (shape h t)) := by
  intro h
  induction h with
  | zero =>
    intro (b : LeafBlk) d seen prevLevel ht _ _ hseen hd hprev
    obtain ⟨d, rfl⟩ := Nat.exists_eq_succ_of_ne_zero (by omega : d ≠ 0)
    have hread : readNode sb dev (addr 0 b) = .ok (.leaf b.hdr b.items) := ht
    have hlevel : (prevLevel.any fun l => decide ((Node.leaf b.hdr b.items).level + 1 ≠ l)) =
        false := by
      cases prevLevel with
      | none => rfl
      | some l => simpa [Node.level] using hprev l rfl
    simp only [searchFrom, addr_not_mem_of_disjoint hns hseen, ↓reduceIte, hread, hlevel,
      Bool.false_eq_true, lookup, shape]
    cases b.items.find? fun it => decide (it.k = k) <;> rfl
  | succ h ih =>
    intro (b : NodeBlk (LTree h)) d seen prevLevel ht hap hfull hseen hd hprev
    obtain ⟨d, rfl⟩ := Nat.exists_eq_succ_of_ne_zero (by omega : d ≠ 0)
    obtain ⟨hread, hkids⟩ := ht
    obtain ⟨hne, hfk⟩ := shape_full_kids hfull
    obtain ⟨A, c, B, hf⟩ := focus_isSome Kid.sep k hne
    have hc : c ∈ b.kids := focus_mem hf
    have hlevel : (prevLevel.any fun l =>
        decide ((Node.internal b.hdr h (b.kids.map (ptr h))).level + 1 ≠ l)) = false := by
      cases prevLevel with
      | none => rfl
      | some l => exact decide_eq_false (not_not.mpr (hprev l rfl))
    have hnot : b.addr ∉ seen := addr_not_mem_of_disjoint (h := h + 1) (t := b) hns hseen
    have hunseen : Unseen sb (b.addr :: seen) c.sub := by
      intro a ha
      rcases List.mem_cons.mp ha with rfl | ha
      · exact (hap.2 c hc).1
      · exact (hseen a ha).mono_right (kid_foot_subset hc)
    have hrec := ih c.sub d (b.addr :: seen) (some (h + 1)) (hkids c hc).2 (hap.2 c hc).2 (hfk c hc)
      hunseen (by omega) (by simp)
    have hb : addr (h + 1) b = b.addr := rfl
    rw [hb]
    simp only [searchFrom, hnot, ↓reduceIte, hread, hlevel, Bool.false_eq_true, getLast?_ptrRun hf,
      lookup, shape, focus_shape hf]
    by_cases hle : c.sep ≤ k
    · have hchild : (ptr h c).child = addr h c.sub := rfl
      simp only [hle, ↓reduceIte, hchild, (hkids c hc).1, Node.level]
      exact hrec
    · simp only [hle, ↓reduceIte]
      rfl

theorem searchTree_held (hns : 0 < sb.nodeSize) {h : Nat} {t : LTree h} (ht : Held sb dev h t)
    (hap : Apart sb h t) (hfull : STree.Full h (shape h t)) (hd : h ≤ maxBtreeDepth) (k : Key) :
    searchTree sb dev (addr h t) k = found k (lookup k h (shape h t)) :=
  searchFrom_held hns k h t _ [] none ht hap hfull (by intro a ha; simp at ha) (by omega) (by simp)

/-- On an ordered tree the search finds what the in-order list holds. -/
theorem lookup_eq (k : Key) : ∀ (h : Nat) (t : STree Key LeafItem h),
    STree.Ordered LeafItem.k h t → STree.Full h t →
    lookup k h t = (STree.items h t).find? fun it => decide (it.k = k) := by
  intro h
  induction h with
  | zero => intro t _ _; rfl
  | succ h ih =>
    intro (kids : List (Key × STree Key LeafItem h)) hord hfull
    obtain ⟨A, p, B, hf⟩ := focus_isSome Prod.fst k hfull.1
    obtain ⟨hl, -⟩ := focus_eq_some hf
    have hp : p ∈ kids := focus_mem hf
    simp only [lookup, hf]
    by_cases hle : p.1 ≤ k
    · -- nothing outside the chosen child has the key
      have hout : ∀ q, q ∈ A ∨ q ∈ B → ∀ it ∈ STree.items h q.2, it.k ≠ k := by
        have hpw := hord.1
        rw [hl] at hpw
        rintro q (hq | hq) it hit
        · have hqp := (List.pairwise_append.mp hpw).2.2 q hq p (by simp)
          exact (lt_of_lt_of_le (hqp.2 it hit) hle).ne
        · have hgt := focus_gt (hord.1.imp fun h => h.1) hf q hq
          exact (lt_of_lt_of_le hgt ((hord.2 q (by rw [hl]; simp [hq])).2 it hit)).ne'
      have hnone : ∀ K : List (Key × STree Key LeafItem h), (∀ q ∈ K, q ∈ A ∨ q ∈ B) →
          (K.flatMap fun q => STree.items h q.2).find? (fun it => decide (it.k = k)) = none := by
        intro K hK
        rw [List.find?_eq_none]
        intro it hit
        obtain ⟨q, hq, hitq⟩ := List.mem_flatMap.mp hit
        simpa using hout q (hK q hq) it hitq
      rw [if_pos hle, ih p.2 (hord.2 p hp).1 (hfull.2 p hp)]
      simp only [STree.items]
      rw [hl, List.flatMap_append, List.flatMap_cons, List.find?_append, List.find?_append,
        hnone A (fun q hq => Or.inl hq), hnone B (fun q hq => Or.inr hq)]
      simp
    · -- the key is before every separator, so before every item
      rw [if_neg hle, eq_comm, List.find?_eq_none]
      have hA : A = [] := by
        by_contra hne
        exact hle (focus_le hf hne)
      intro it hit
      obtain ⟨q, hq, hitq⟩ := List.mem_flatMap.mp hit
      have hpq : p.1 ≤ q.1 := by
        have hpw := hord.1
        rw [hl, hA, List.nil_append] at hpw
        rw [hl, hA, List.nil_append] at hq
        rcases List.mem_cons.mp hq with rfl | hq
        · exact le_rfl
        · exact ((List.pairwise_cons.mp hpw).1 q hq).1
      have hkit : k < it.k := lt_of_lt_of_le (not_le.mp hle) (hpq.trans ((hord.2 q hq).2 it hitq))
      simpa using hkit.ne'

/-! ## 2. Stacks of subtrees -/

/-- A subtree on the stack of a prefix walk, with its depth. -/
structure Frame where
  depth : Nat
  height : Nat
  tree : LTree height

def Frame.entry (f : Frame) : Nat × Nat := (addr f.height f.tree, f.depth)

/-- The subtrees on a stack are held, do not overlap, were not seen, and are not too deep. -/
structure StackOk (sb : Superblock) (dev : Device) (seen : List Nat) (S : List Frame) : Prop where
  held : ∀ f ∈ S, Held sb dev f.height f.tree
  apart : ∀ f ∈ S, Apart sb f.height f.tree
  shallow : ∀ f ∈ S, f.depth + f.height ≤ maxBtreeDepth
  unseen : ∀ f ∈ S, Unseen sb seen f.tree
  pairwise : S.Pairwise fun f g => Disjoint (foot sb f.height f.tree) (foot sb g.height g.tree)

/-- The number of nodes on a stack. -/
def stackCount (S : List Frame) : Nat := (S.map fun f => count f.height f.tree).sum

def Frame.kid (d : Nat) {h : Nat} (c : Kid (LTree h)) : Frame := ⟨d, h, c.sub⟩

theorem StackOk.start {h : Nat} {t : LTree h} (ht : Held sb dev h t) (hap : Apart sb h t)
    (hd : h ≤ maxBtreeDepth) : StackOk sb dev [] [⟨0, h, t⟩] := by
  refine ⟨?_, ?_, ?_, ?_, List.pairwise_singleton _ _⟩
  all_goals
    intro f hf
    obtain rfl := List.mem_singleton.mp hf
  · exact ht
  · exact hap
  · simpa using hd
  · intro a ha
    simp at ha

theorem StackOk.pop {seen : List Nat} {f : Frame} {S : List Frame}
    (hS : StackOk sb dev seen (f :: S)) : StackOk sb dev (addr f.height f.tree :: seen) S := by
  obtain ⟨hfS, hpw⟩ := List.pairwise_cons.mp hS.pairwise
  refine ⟨fun g hg => hS.held g (by simp [hg]), fun g hg => hS.apart g (by simp [hg]),
    fun g hg => hS.shallow g (by simp [hg]), ?_, hpw⟩
  intro g hg a ha
  rcases List.mem_cons.mp ha with rfl | ha
  · exact (hfS g hg).mono_left (blk_subset_foot f.height f.tree)
  · exact hS.unseen g (by simp [hg]) a ha

/-- Some of the children of the top go on the stack in its place. -/
theorem StackOk.push {seen : List Nat} {d h : Nat} {b : NodeBlk (LTree h)} {S : List Frame}
    (hS : StackOk sb dev seen (⟨d, h + 1, b⟩ :: S)) {K : List (Kid (LTree h))}
    (hK : K.Sublist b.kids) :
    StackOk sb dev (b.addr :: seen) (K.map (Frame.kid (d + 1)) ++ S) := by
  have hrest := hS.pop
  have hheld : Held sb dev (h + 1) b := hS.held _ List.mem_cons_self
  have hap : Apart sb (h + 1) b := hS.apart _ List.mem_cons_self
  have hshallow : d + (h + 1) ≤ maxBtreeDepth := hS.shallow _ List.mem_cons_self
  have hunseen : Unseen sb seen (h := h + 1) b := hS.unseen _ List.mem_cons_self
  obtain ⟨hfS, -⟩ := List.pairwise_cons.mp hS.pairwise
  have hmem : ∀ f ∈ K.map (Frame.kid (d + 1)) ++ S, f ∈ S ∨ ∃ c ∈ b.kids, f = Frame.kid (d + 1) c := by
    intro f hf
    rcases List.mem_append.mp hf with hf | hf
    · obtain ⟨c, hc, rfl⟩ := List.mem_map.mp hf
      exact Or.inr ⟨c, hK.subset hc, rfl⟩
    · exact Or.inl hf
  refine ⟨?_, ?_, ?_, ?_, List.pairwise_append.mpr ⟨?_, hrest.pairwise, ?_⟩⟩
  · intro f hf
    rcases hmem f hf with hf | ⟨c, hc, rfl⟩
    · exact hrest.held f hf
    · exact (hheld.2 c hc).2
  · intro f hf
    rcases hmem f hf with hf | ⟨c, hc, rfl⟩
    · exact hrest.apart f hf
    · exact (hap.2 c hc).2
  · intro f hf
    rcases hmem f hf with hf | ⟨c, hc, rfl⟩
    · exact hrest.shallow f hf
    · simp only [Frame.kid]
      omega
  · intro f hf
    rcases hmem f hf with hf | ⟨c, hc, rfl⟩
    · exact hrest.unseen f hf
    · intro a ha
      rcases List.mem_cons.mp ha with rfl | ha
      · exact (hap.2 c hc).1
      · exact (hunseen a ha).mono_right (kid_foot_subset hc)
  · rw [List.pairwise_map]
    exact hap.1.sublist hK
  · intro f hf g hg
    obtain ⟨c, hc, rfl⟩ := List.mem_map.mp hf
    exact (hfS g hg).mono_left (kid_foot_subset (hK.subset hc))

theorem stackCount_push {d h : Nat} {b : NodeBlk (LTree h)} {S : List Frame}
    {K : List (Kid (LTree h))} (hK : K.Sublist b.kids) :
    stackCount (K.map (Frame.kid (d + 1)) ++ S) < stackCount (⟨d, h + 1, b⟩ :: S) := by
  have hsub : (K.map fun c => count h c.sub).sum ≤ (b.kids.map fun c => count h c.sub).sum :=
    (hK.map _).sum_le_sum fun _ _ => Nat.zero_le _
  have hcnt : count (h + 1) b = 1 + (b.kids.map fun c => count h c.sub).sum := rfl
  simp only [stackCount, List.map_append, List.sum_append, List.map_map, List.map_cons,
    List.sum_cons, Function.comp_def, Frame.kid, hcnt]
  omega

theorem count_pos (h : Nat) (t : LTree h) : 0 < count h t := by
  cases h with
  | zero => exact Nat.one_pos
  | succ h => exact Nat.lt_of_lt_of_le Nat.one_pos (Nat.le_add_right 1 _)

/-! ## 3. Items with a given objectid and type -/

/-- The key is past every key with this objectid and type. -/
def Key.past (objID typ : Nat) (k : Key) : Bool :=
  decide (objID < k.objID ∨ k.objID = objID ∧ typ < k.typ)

/-- The items `walkPrefixLeaves` visits, on the search tree. -/
def prefixItems (objID typ : Nat) : (h : Nat) → STree Key LeafItem h → List LeafItem
  | 0, (l : List LeafItem) => l.filter (LeafItem.hasPrefix objID typ)
  | h + 1, (kids : List (Key × STree Key LeafItem h)) =>
    (kids.takeWhile fun p => !p.1.past objID typ).flatMap fun p => prefixItems objID typ h p.2

def Frame.prefixItems (objID typ : Nat) (f : Frame) : List LeafItem :=
  Btrfs.prefixItems objID typ f.height (shape f.height f.tree)

theorem walkPrefixFrom_held (hns : 0 < sb.nodeSize) (objID typ : Nat) :
    ∀ (fuel : Nat) (S : List Frame) (seen : List Nat) (out : List LeafItem),
      StackOk sb dev seen S → stackCount S ≤ fuel →
      walkPrefixFrom sb dev objID typ fuel (S.map Frame.entry) seen out =
        .ok (out ++ S.flatMap (Frame.prefixItems objID typ)) := by
  intro fuel
  induction fuel with
  | zero =>
    intro S seen out hS hfuel
    cases S with
    | nil => simp [walkPrefixFrom]
    | cons f S =>
      have := count_pos f.height f.tree
      simp only [stackCount, List.map_cons, List.sum_cons] at hfuel
      omega
  | succ fuel ih =>
    intro S seen out hS hfuel
    cases S with
    | nil => simp [walkPrefixFrom]
    | cons f S =>
      have hnot : addr f.height f.tree ∉ seen :=
        addr_not_mem_of_disjoint hns (hS.unseen f List.mem_cons_self)
      have hdepth : ¬ maxBtreeDepth < f.depth := by
        have := hS.shallow f List.mem_cons_self
        omega
      obtain ⟨d, h, t⟩ := f
      cases h with
      | zero =>
        have hread : readNode sb dev (addr 0 t) = .ok (.leaf (LeafBlk.hdr t) (LeafBlk.items t)) :=
          hS.held _ List.mem_cons_self
        have hfuel' : stackCount S ≤ fuel := by
          simp only [stackCount, List.map_cons, List.sum_cons, count] at hfuel ⊢
          omega
        simp only [List.map_cons, Frame.entry, walkPrefixFrom, hdepth, hnot, ↓reduceIte, hread]
        rw [ih S _ _ hS.pop hfuel']
        simp [Frame.prefixItems, Btrfs.prefixItems, shape]
      | succ h =>
        have hread := (hS.held _ List.mem_cons_self).1
        have hsub : ((NodeBlk.kids t).takeWhile fun c => !c.sep.past objID typ).Sublist
            (NodeBlk.kids t) := List.takeWhile_sublist _
        have hchildren : (((NodeBlk.kids t).map (ptr h)).takeWhile
              fun p => !p.past objID typ).map (fun p => (p.child, d + 1)) =
            (((NodeBlk.kids t).takeWhile fun c => !c.sep.past objID typ).map
              (Frame.kid (d + 1))).map Frame.entry := by
          rw [List.takeWhile_map, List.map_map, List.map_map]
          rfl
        have hfuel' := stackCount_push (d := d) (S := S) hsub
        have hb : addr (h + 1) t = NodeBlk.addr t := rfl
        simp only [List.map_cons, Frame.entry, walkPrefixFrom, hdepth, hnot, ↓reduceIte]
        rw [hb, hread]
        simp only []
        rw [hchildren, ← List.map_append]
        rw [ih _ (NodeBlk.addr t :: seen) out (hS.push hsub) (by omega)]
        simp only [List.flatMap_append, List.flatMap_cons, Frame.prefixItems, Btrfs.prefixItems,
          shape, List.takeWhile_map, List.flatMap_map, Frame.kid]
        rfl

theorem walkPrefixLeaves_held (hns : 0 < sb.nodeSize) {h : Nat} {t : LTree h}
    (ht : Held sb dev h t) (hap : Apart sb h t) (hd : h ≤ maxBtreeDepth)
    (hcount : count h t ≤ maxTreeNodes) (objID typ : Nat) :
    walkPrefixLeaves sb dev (addr h t) objID typ = .ok (prefixItems objID typ h (shape h t)) := by
  have hwalk := walkPrefixFrom_held hns objID typ maxTreeNodes [⟨0, h, t⟩] [] []
    (StackOk.start ht hap hd)
    (by simpa [stackCount] using hcount)
  simp only [List.flatMap_cons, List.flatMap_nil, List.append_nil, List.nil_append] at hwalk
  exact hwalk

/-- Nothing past the prefix matches it, and nothing after a key past the prefix is before it. -/
theorem past_mono {a b : Key} (hab : a ≤ b) (ha : a.past objID typ = true) :
    b.past objID typ = true := by
  simp only [Key.past, decide_eq_true_eq, Key.le_def] at *
  omega

theorem not_hasPrefix_of_past {it : LeafItem} (h : it.k.past objID typ = true) :
    it.hasPrefix objID typ = false := by
  simp only [Key.past, LeafItem.hasPrefix, decide_eq_true_eq, decide_eq_false_iff_not] at *
  omega

/-- On an ordered tree the walk visits exactly the matching items, in order. -/
theorem prefixItems_eq (objID typ : Nat) : ∀ (h : Nat) (t : STree Key LeafItem h),
    STree.Ordered LeafItem.k h t →
    prefixItems objID typ h t = (STree.items h t).filter (LeafItem.hasPrefix objID typ) := by
  intro h
  induction h with
  | zero => intro t _; rfl
  | succ h ih =>
    intro (kids : List (Key × STree Key LeafItem h)) hord
    have hall : ∀ K : List (Key × STree Key LeafItem h), K.Sublist kids →
        ((K.takeWhile fun p => !p.1.past objID typ).flatMap fun p => prefixItems objID typ h p.2) =
          (K.flatMap fun p => STree.items h p.2).filter (LeafItem.hasPrefix objID typ) := by
      intro K
      induction K with
      | nil => intro _; rfl
      | cons p K ihK =>
        intro hK
        obtain ⟨hpw, hsub⟩ := hord.sub hK
        by_cases hpast : p.1.past objID typ = true
        · -- from here on every item is past the prefix
          have hnone : ((p :: K).flatMap fun p => STree.items h p.2).filter
              (LeafItem.hasPrefix objID typ) = [] := by
            rw [List.filter_eq_nil_iff]
            intro it hit
            obtain ⟨q, hq, hitq⟩ := List.mem_flatMap.mp hit
            have hpq : p.1 ≤ q.1 := by
              rcases List.mem_cons.mp hq with rfl | hq
              · exact le_rfl
              · exact ((List.pairwise_cons.mp hpw).1 q hq).1
            have hle : p.1 ≤ it.k := hpq.trans ((hsub q hq).2 it hitq)
            simp [not_hasPrefix_of_past (past_mono hle hpast)]
          rw [hnone, List.takeWhile_cons_of_neg (by simp [hpast])]
          rfl
        · have hrec := ihK ((List.sublist_cons_self p K).trans hK)
          rw [List.takeWhile_cons_of_pos (by simpa using hpast), List.flatMap_cons,
            List.flatMap_cons, List.filter_append, hrec, ih p.2 (hsub p (by simp)).1]
    exact hall kids (List.Sublist.refl kids)

/-! ## 4. A leaf with such an item -/

/-- `findLeafContainingPrefix` comes to a matching item, on the search tree. -/
def Sees (objID typ : Nat) : (h : Nat) → STree Key LeafItem h → Prop
  | 0, (l : List LeafItem) => ∃ it ∈ l, it.hasPrefix objID typ = true
  | h + 1, (kids : List (Key × STree Key LeafItem h)) =>
    ∃ p ∈ kids, p.1.past objID typ = false ∧ Sees objID typ h p.2

def Frame.Sees (objID typ : Nat) (f : Frame) : Prop :=
  Btrfs.Sees objID typ f.height (shape f.height f.tree)

theorem findLeafFrom_held (hns : 0 < sb.nodeSize) (objID typ : Nat) :
    ∀ (fuel : Nat) (S : List Frame) (seen : List Nat),
      StackOk sb dev seen S → stackCount S ≤ fuel →
      ∃ r, findLeafFrom sb dev objID typ fuel (S.map Frame.entry) seen = .ok r ∧
        (r = none ↔ ∀ f ∈ S, ¬ f.Sees objID typ) := by
  intro fuel
  induction fuel with
  | zero =>
    intro S seen hS hfuel
    cases S with
    | nil => exact ⟨none, by simp [findLeafFrom], by simp⟩
    | cons f S =>
      have := count_pos f.height f.tree
      simp only [stackCount, List.map_cons, List.sum_cons] at hfuel
      omega
  | succ fuel ih =>
    intro S seen hS hfuel
    cases S with
    | nil => exact ⟨none, by simp [findLeafFrom], by simp⟩
    | cons f S =>
      have hnot : addr f.height f.tree ∉ seen :=
        addr_not_mem_of_disjoint hns (hS.unseen f List.mem_cons_self)
      have hdepth : ¬ maxBtreeDepth < f.depth := by
        have := hS.shallow f List.mem_cons_self
        omega
      obtain ⟨d, h, t⟩ := f
      cases h with
      | zero =>
        have hread : readNode sb dev (addr 0 t) = .ok (.leaf (LeafBlk.hdr t) (LeafBlk.items t)) :=
          hS.held _ List.mem_cons_self
        have hsees : Frame.Sees objID typ ⟨d, 0, t⟩ ↔
            (LeafBlk.items t).any (LeafItem.hasPrefix objID typ) = true := by
          rw [List.any_eq_true]
          rfl
        simp only [List.map_cons, Frame.entry, findLeafFrom, hdepth, hnot, ↓reduceIte, hread]
        by_cases hany : (LeafBlk.items t).any (LeafItem.hasPrefix objID typ) = true
        · rw [if_pos hany]
          refine ⟨some (addr 0 t), rfl, nofun, ?_⟩
          intro hall
          exact absurd (hsees.mpr hany) (hall _ List.mem_cons_self)
        · rw [if_neg hany]
          have hfuel' : stackCount S ≤ fuel := by
            simp only [stackCount, List.map_cons, List.sum_cons, count] at hfuel ⊢
            omega
          obtain ⟨r, hr, hiff⟩ := ih S (addr 0 t :: seen) hS.pop hfuel'
          refine ⟨r, hr, hiff.trans ?_⟩
          rw [List.forall_mem_cons, hsees]
          simp [hany]
      | succ h =>
        have hread := (hS.held _ List.mem_cons_self).1
        have hsub : ((NodeBlk.kids t).filter fun c => !c.sep.past objID typ).Sublist
            (NodeBlk.kids t) := List.filter_sublist
        have hchildren : (((NodeBlk.kids t).map (ptr h)).filter
              fun p => !p.past objID typ).map (fun p => (p.child, d + 1)) =
            (((NodeBlk.kids t).filter fun c => !c.sep.past objID typ).map
              (Frame.kid (d + 1))).map Frame.entry := by
          rw [List.filter_map, List.map_map, List.map_map]
          rfl
        have hfuel' := stackCount_push (d := d) (S := S) hsub
        have hb : addr (h + 1) t = NodeBlk.addr t := rfl
        simp only [List.map_cons, Frame.entry, findLeafFrom, hdepth, hnot, ↓reduceIte]
        rw [hb, hread]
        simp only []
        rw [hchildren, ← List.map_append]
        obtain ⟨r, hr, hiff⟩ := ih _ (NodeBlk.addr t :: seen) (hS.push hsub) (by omega)
        refine ⟨r, hr, hiff.trans ?_⟩
        have hsees : Frame.Sees objID typ ⟨d, h + 1, t⟩ ↔
            ∃ c ∈ (NodeBlk.kids t).filter (fun c => !c.sep.past objID typ),
              (Frame.kid (d + 1) c).Sees objID typ := by
          constructor
          · rintro ⟨p, hp, hpast, hs⟩
            obtain ⟨c, hc, rfl⟩ := List.mem_map.mp hp
            exact ⟨c, List.mem_filter.mpr ⟨hc, by simpa using hpast⟩, hs⟩
          · rintro ⟨c, hc, hs⟩
            obtain ⟨hc, hpast⟩ := List.mem_filter.mp hc
            exact ⟨(c.sep, shape h c.sub), List.mem_map.mpr ⟨c, hc, rfl⟩, by simpa using hpast, hs⟩
        rw [List.forall_mem_append, List.forall_mem_cons, hsees, List.forall_mem_map]
        simp only [not_exists, not_and]

/-- On an ordered tree no matching item is overlooked. -/
theorem sees_iff (objID typ : Nat) : ∀ (h : Nat) (t : STree Key LeafItem h),
    STree.Ordered LeafItem.k h t →
    (Sees objID typ h t ↔ ∃ it ∈ STree.items h t, it.hasPrefix objID typ = true) := by
  intro h
  induction h with
  | zero => intro t _; rfl
  | succ h ih =>
    intro (kids : List (Key × STree Key LeafItem h)) hord
    simp only [Sees, STree.items]
    constructor
    · rintro ⟨p, hp, -, hs⟩
      obtain ⟨it, hit, hm⟩ := (ih p.2 (hord.2 p hp).1).mp hs
      exact ⟨it, List.mem_flatMap.mpr ⟨p, hp, hit⟩, hm⟩
    · rintro ⟨it, hit, hm⟩
      obtain ⟨p, hp, hitp⟩ := List.mem_flatMap.mp hit
      refine ⟨p, hp, ?_, (ih p.2 (hord.2 p hp).1).mpr ⟨it, hitp, hm⟩⟩
      by_contra hpast
      have hit' := past_mono ((hord.2 p hp).2 it hitp) (by simpa using hpast)
      rw [not_hasPrefix_of_past hit'] at hm
      cases hm

/-- `findLeafContainingPrefix` finds a leaf exactly when there is a matching item. -/
theorem findLeafContainingPrefix_held (hns : 0 < sb.nodeSize) {h : Nat} {t : LTree h}
    (ht : Held sb dev h t) (hap : Apart sb h t) (hd : h ≤ maxBtreeDepth)
    (hcount : count h t ≤ maxTreeNodes) (hord : STree.Ordered LeafItem.k h (shape h t))
    (objID typ : Nat) :
    ∃ r, findLeafContainingPrefix sb dev (addr h t) objID typ = .ok r ∧
      (r = none ↔ ∀ it ∈ items h t, it.hasPrefix objID typ = false) := by
  obtain ⟨r, hr, hiff⟩ := findLeafFrom_held hns objID typ maxTreeNodes [⟨0, h, t⟩] []
    (StackOk.start ht hap hd) (by simpa [stackCount] using hcount)
  refine ⟨r, hr, hiff.trans ?_⟩
  rw [List.forall_mem_singleton, Frame.Sees, sees_iff objID typ h _ hord]
  simp [items]

end Btrfs
