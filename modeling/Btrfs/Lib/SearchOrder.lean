/-
  Btrfs/Lib/SearchOrder.lean
  ==========================
  **Search trees whose separators guide a search.**

  In an ordered tree each separator is a lower bound of its subtree and exceeds every
  key to its left, so everything to the left of a routed leaf is smaller than the key
  and everything to the right is larger.  Edits keep the order when the new items lie
  inside the range the separators on the path leave to the routed leaf (`Inside`).  A
  key that was routed past a separator larger than itself does not; `Reaches` rules
  that case out.
-/
import Btrfs.Lib.SearchTree

namespace Btrfs.Lib.STree

/-! ## 1. Order -/

variable {κ ι : Type} [LinearOrder κ] (key : ι → κ)

/-- Keys increase through the tree; each separator is a lower bound of its subtree and exceeds
    every key of the subtrees to its left, and separators do not decrease inside a node. -/
def Ordered : (h : Nat) → STree κ ι h → Prop
  | 0, (l : List ι) => l.Pairwise fun a b => key a < key b
  | h + 1, (kids : List (κ × STree κ ι h)) =>
    (kids.Pairwise fun p q => p.1 ≤ q.1 ∧ ∀ x ∈ items h p.2, key x < q.1) ∧
    ∀ p ∈ kids, Ordered h p.2 ∧ ∀ x ∈ items h p.2, p.1 ≤ key x

variable {key}

theorem Ordered.sorted : ∀ (h : Nat) (t : STree κ ι h), Ordered key h t →
    (items h t).Pairwise fun a b => key a < key b := by
  intro h
  induction h with
  | zero => intro t ht; exact ht
  | succ h ih =>
    intro (kids : List (κ × STree κ ι h)) ht
    obtain ⟨hpw, hall⟩ := ht
    refine List.pairwise_flatMap.mpr ?_
    constructor
    · intro p hp
      exact ih p.2 (hall p hp).1
    · refine hpw.imp_of_mem ?_
      intro p q _ hq hpq x hx y hy
      exact lt_of_lt_of_le (hpq.2 x hx) ((hall q hq).2 y hy)

theorem Ordered.before_lt (k : κ) : ∀ (h : Nat) (t : STree κ ι h), Ordered key h t →
    ∀ x ∈ before k h t, key x < k := by
  intro h
  induction h with
  | zero => intro t _ x hx; simp [before] at hx
  | succ h ih =>
    intro (kids : List (κ × STree κ ι h)) ht x hx
    obtain ⟨hpw, hall⟩ := ht
    simp only [before] at hx
    split at hx
    · simp at hx
    · next A p B hf =>
      obtain ⟨hl, -⟩ := focus_eq_some hf
      rcases List.mem_append.mp hx with hx | hx
      · -- a child to the left: its keys are below the separator the key was routed to
        obtain ⟨q, hq, hxq⟩ := List.mem_flatMap.mp hx
        have hle : p.1 ≤ k := focus_le hf (List.ne_nil_of_mem hq)
        rw [hl] at hpw
        have hqp := (List.pairwise_append.mp hpw).2.2 q hq p (by simp)
        exact lt_of_lt_of_le (hqp.2 x hxq) hle
      · exact ih p.2 (hall p (focus_mem hf)).1 x hx

theorem Ordered.after_gt (k : κ) : ∀ (h : Nat) (t : STree κ ι h), Ordered key h t →
    ∀ x ∈ after k h t, k < key x := by
  intro h
  induction h with
  | zero => intro t _ x hx; simp [after] at hx
  | succ h ih =>
    intro (kids : List (κ × STree κ ι h)) ht x hx
    obtain ⟨hpw, hall⟩ := ht
    simp only [after] at hx
    split at hx
    · simp at hx
    · next A p B hf =>
      obtain ⟨hl, -⟩ := focus_eq_some hf
      rcases List.mem_append.mp hx with hx | hx
      · exact ih p.2 (hall p (focus_mem hf)).1 x hx
      · obtain ⟨q, hq, hxq⟩ := List.mem_flatMap.mp hx
        have hgt := focus_gt (hpw.imp fun hpq => hpq.1) hf q hq
        exact lt_of_lt_of_le hgt ((hall q (by rw [hl]; simp [hq])).2 x hxq)

theorem Ordered.leafAt_sorted (k : κ) (h : Nat) (t : STree κ ι h) (ht : Ordered key h t)
    (hfull : Full h t) : (leafAt k h t).Pairwise fun a b => key a < key b := by
  have hs := ht.sorted h t
  rw [items_eq k h t hfull] at hs
  exact (List.pairwise_append.mp (List.pairwise_append.mp hs).1).2.1

/-! ## 2. The range of the routed leaf -/

/-- `y` lies in the range the separators on the path of `k` leave to the routed leaf. -/
def Inside (k y : κ) : (h : Nat) → STree κ ι h → Prop
  | 0, _ => True
  | h + 1, (kids : List (κ × STree κ ι h)) =>
    match focus Prod.fst k kids with
    | none => True
    | some (_, p, B) => p.1 ≤ y ∧ (∀ q ∈ B, y < q.1) ∧ Inside k y h p.2

/-- The key is not smaller than all separators of any node on its path. -/
def Reaches (k : κ) : (h : Nat) → STree κ ι h → Prop
  | 0, _ => True
  | h + 1, (kids : List (κ × STree κ ι h)) =>
    match focus Prod.fst k kids with
    | none => True
    | some (_, p, _) => p.1 ≤ k ∧ Reaches k h p.2

theorem Ordered.inside_of_reaches (k : κ) : ∀ (h : Nat) (t : STree κ ι h), Ordered key h t →
    Reaches k h t → Inside k k h t := by
  intro h
  induction h with
  | zero => intro t _ _; trivial
  | succ h ih =>
    intro (kids : List (κ × STree κ ι h)) ht hr
    cases hf : focus Prod.fst k kids with
    | none => simp only [Inside, hf]
    | some f =>
      obtain ⟨A, p, B⟩ := f
      simp only [Reaches, hf] at hr
      simp only [Inside, hf]
      refine ⟨hr.1, ?_, ?_⟩
      · exact focus_gt (ht.1.imp fun hpq => hpq.1) hf
      · exact ih p.2 (ht.2 p (focus_mem hf)).1 hr.2

theorem Ordered.inside_of_mem (k : κ) : ∀ (h : Nat) (t : STree κ ι h), Ordered key h t →
    Full h t → ∀ x ∈ leafAt k h t, Inside k (key x) h t := by
  intro h
  induction h with
  | zero => intro t _ _ x _; trivial
  | succ h ih =>
    intro (kids : List (κ × STree κ ι h)) ht hfull x hx
    cases hf : focus Prod.fst k kids with
    | none => simp only [Inside, hf]
    | some f =>
      obtain ⟨A, p, B⟩ := f
      obtain ⟨hl, -⟩ := focus_eq_some hf
      have hp : p ∈ kids := focus_mem hf
      simp only [leafAt, hf] at hx
      have hxp : x ∈ items h p.2 := by
        rw [items_eq k h p.2 (hfull.2 p hp)]
        simp [hx]
      simp only [Inside, hf]
      refine ⟨(ht.2 p hp).2 x hxp, ?_, ?_⟩
      · intro q hq
        have hpw := ht.1
        rw [hl] at hpw
        have hpB := (List.pairwise_cons.mp (List.pairwise_append.mp hpw).2.1).1
        exact (hpB q hq).2 x hxp
      · exact ih p.2 (ht.2 p hp).1 (hfull.2 p hp) x hx

/-! ## 3. Edits keep the order -/

/-- New children in the place of one: they must lie between the same bounds. -/
theorem Ordered.replace {h : Nat} {A B C : List (κ × STree κ ι h)} {p : κ × STree κ ι h}
    (ht : Ordered key (h + 1) (A ++ p :: B : List _)) (hC : Ordered key (h + 1) (C : List _))
    (hlow : ∀ c ∈ C, p.1 ≤ c.1)
    (hhigh : ∀ c ∈ C, ∀ q ∈ B, c.1 ≤ q.1 ∧ ∀ x ∈ items h c.2, key x < q.1) :
    Ordered key (h + 1) (A ++ C ++ B : List _) := by
  obtain ⟨hpw, hall⟩ := ht
  obtain ⟨hA, hpB, hApB⟩ := List.pairwise_append.mp hpw
  obtain ⟨-, hB⟩ := List.pairwise_cons.mp hpB
  refine ⟨List.pairwise_append.mpr ⟨List.pairwise_append.mpr ⟨hA, hC.1, ?_⟩, hB, ?_⟩, ?_⟩
  · intro a ha c hc
    have hap := hApB a ha p (by simp)
    refine ⟨hap.1.trans (hlow c hc), ?_⟩
    intro x hx
    exact lt_of_lt_of_le (hap.2 x hx) (hlow c hc)
  · intro a ha q hq
    rcases List.mem_append.mp ha with ha | ha
    · exact hApB a ha q (by simp [hq])
    · exact hhigh a ha q hq
  · intro q hq
    rcases List.mem_append.mp hq with hq | hq
    · rcases List.mem_append.mp hq with hq | hq
      · exact hall q (by simp [hq])
      · exact hC.2 q hq
    · exact hall q (by simp [hq])

theorem Ordered.sub {h : Nat} {K L : List (κ × STree κ ι h)} (ht : Ordered key (h + 1) (K : List _))
    (hs : L.Sublist K) : Ordered key (h + 1) (L : List _) :=
  ⟨ht.1.sublist hs, fun q hq => ht.2 q (hs.subset hq)⟩

/-- Leaves that cut a sorted list in non-empty pieces, each under its first key. -/
theorem Ordered.ofLeaves (sep : List ι → κ) {gs : List (List ι)}
    (hs : gs.flatten.Pairwise fun a b => key a < key b)
    (hsep : ∀ g ∈ gs, ∃ x r, g = x :: r ∧ sep g = key x) :
    Ordered key 1 (gs.map fun g => (sep g, g) : List (κ × List ι)) := by
  obtain ⟨hin, hacross⟩ := List.pairwise_flatten.mp hs
  constructor
  · refine List.pairwise_map.mpr (hacross.imp_of_mem fun {g g'} hg hg' hgg => ?_)
    obtain ⟨x, r, rfl, hx⟩ := hsep g hg
    obtain ⟨y, r', rfl, hy⟩ := hsep g' hg'
    simp only [hx, hy]
    exact ⟨(hgg x (by simp) y (by simp)).le, fun z hz => hgg z hz y (by simp)⟩
  · intro p hp
    obtain ⟨g, hg, rfl⟩ := List.mem_map.mp hp
    obtain ⟨x, r, rfl, hx⟩ := hsep g hg
    have hsorted := hin _ hg
    refine ⟨hsorted, fun z hz => ?_⟩
    simp only [hx]
    rcases List.mem_cons.mp hz with rfl | hz
    · exact le_rfl
    · exact ((List.pairwise_cons.mp hsorted).1 z hz).le

/-- Nodes over consecutive non-empty runs of children, each under the separator of its first child. -/
theorem Ordered.regroup {h : Nat} (d : κ) {gs : List (List (κ × STree κ ι h))}
    (ht : Ordered key (h + 1) (gs.flatten : List _)) (hne : ∀ g ∈ gs, g ≠ []) :
    Ordered key (h + 2) (gs.map fun g => (headSep d g, g) : List (κ × List (κ × STree κ ι h))) := by
  obtain ⟨hin, hacross⟩ := List.pairwise_flatten.mp ht.1
  have hhead : ∀ g ∈ gs, ∃ p r, g = p :: r ∧ headSep d g = p.1 := by
    intro g hg
    cases g with
    | nil => exact absurd rfl (hne _ hg)
    | cons p r => exact ⟨p, r, rfl, rfl⟩
  constructor
  · refine List.pairwise_map.mpr (hacross.imp_of_mem fun {g g'} hg hg' hgg => ?_)
    obtain ⟨p, r, rfl, hp⟩ := hhead g hg
    obtain ⟨q, r', rfl, hq⟩ := hhead g' hg'
    simp only [hp, hq]
    refine ⟨(hgg p (by simp) q (by simp)).1, fun x hx => ?_⟩
    obtain ⟨p', hp', hxp⟩ := List.mem_flatMap.mp hx
    exact (hgg p' hp' q (by simp)).2 x hxp
  · intro p hp
    obtain ⟨g, hg, rfl⟩ := List.mem_map.mp hp
    have hsub : Ordered key (h + 1) (g : List _) := ht.sub (List.sublist_flatten_of_mem hg)
    refine ⟨hsub, fun x hx => ?_⟩
    obtain ⟨q, r, rfl, hq⟩ := hhead g hg
    obtain ⟨p', hp', hxp⟩ := List.mem_flatMap.mp hx
    have hle : q.1 ≤ p'.1 := by
      rcases List.mem_cons.mp hp' with rfl | hp'
      · exact le_rfl
      · exact ((List.pairwise_cons.mp hsub.1).1 p' hp').1
    exact (hq.le.trans hle).trans ((hsub.2 p' hp').2 x hxp)

/-- The bounds a child keeps when its items stay inside the path's range. -/
theorem Ordered.bounds {h : Nat} {k : κ} {kids A B : List (κ × STree κ ι h)}
    {p : κ × STree κ ι h} (ht : Ordered key (h + 1) kids)
    (hf : focus Prod.fst k kids = some (A, p, B)) {new : List ι}
    (hin : ∀ x ∈ new, Inside k (key x) (h + 1) kids) :
    (∀ x ∈ new, Inside k (key x) h p.2) ∧
    ∀ x, x ∈ items h p.2 ∨ x ∈ new → p.1 ≤ key x ∧ ∀ q ∈ B, key x < q.1 := by
  obtain ⟨hl, -⟩ := focus_eq_some hf
  simp only [Inside, hf] at hin
  refine ⟨fun x hx => (hin x hx).2.2, ?_⟩
  rintro x (hx | hx)
  · have hpw := ht.1
    rw [hl] at hpw
    have hpB := (List.pairwise_cons.mp (List.pairwise_append.mp hpw).2.1).1
    exact ⟨(ht.2 p (focus_mem hf)).2 x hx, fun q hq => (hpB q hq).2 x hx⟩
  · exact ⟨(hin x hx).1, (hin x hx).2.1⟩

theorem edit_mem (k : κ) (new : List ι) (h : Nat) (t t' : STree κ ι h) (hfull : Full h t)
    (he : edit k new h t = some t') : ∀ x ∈ items h t', x ∈ items h t ∨ x ∈ new := by
  intro x hx
  rw [(edit_items k new h t hfull).2 t' he] at hx
  rw [items_eq k h t hfull]
  simp only [List.mem_append] at hx ⊢
  tauto

theorem Ordered.edit (k : κ) {new : List ι} (hnew : new.Pairwise fun a b => key a < key b) :
    ∀ (h : Nat) (t t' : STree κ ι h), Ordered key h t → Full h t →
      (∀ x ∈ new, Inside k (key x) h t) → STree.edit k new h t = some t' → Ordered key h t' := by
  intro h
  induction h with
  | zero =>
    intro t t' _ _ _ he
    simp only [STree.edit] at he
    split_ifs at he
    obtain rfl := Option.some.inj he
    exact hnew
  | succ h ih =>
    intro (kids : List (κ × STree κ ι h)) t' ht hfull hin he
    simp only [STree.edit] at he
    split at he
    · obtain rfl := Option.some.inj he
      exact ht
    · next A p B hf =>
      obtain ⟨hl, -⟩ := focus_eq_some hf
      have hp : p ∈ kids := focus_mem hf
      obtain ⟨hin', hbounds⟩ := ht.bounds hf hin
      rw [hl] at ht
      split at he
      · next t₁ ht₁ =>
        obtain rfl := Option.some.inj he
        have hrec := ih p.2 t₁ (ht.2 p (by simp)).1 (hfull.2 p hp) hin' ht₁
        have hmem := edit_mem k new h p.2 t₁ (hfull.2 p hp) ht₁
        have hC : Ordered key (h + 1) ([(p.1, t₁)] : List _) := by
          refine ⟨List.pairwise_singleton _ _, ?_⟩
          intro q hq
          obtain rfl := List.mem_singleton.mp hq
          exact ⟨hrec, fun x hx => (hbounds x (hmem x hx)).1⟩
        have hres := ht.replace hC (by simp) ?_
        · simpa using hres
        · intro c hc q hq
          obtain rfl := List.mem_singleton.mp hc
          have hpB := (List.pairwise_cons.mp (List.pairwise_append.mp ht.1).2.1).1
          exact ⟨(hpB q hq).1, fun x hx => (hbounds x (hmem x hx)).2 q hq⟩
      · split_ifs at he
        obtain rfl := Option.some.inj he
        exact ht.sub ((List.sublist_cons_self p B).append_left A)

/-! ## 4. Trees without empty leaves -/

/-- Every leaf has an item and every internal node a child. -/
def NoEmpty : (h : Nat) → STree κ ι h → Prop
  | 0, (l : List ι) => l ≠ []
  | h + 1, (kids : List (κ × STree κ ι h)) => kids ≠ [] ∧ ∀ p ∈ kids, NoEmpty h p.2

omit [LinearOrder κ] in
theorem NoEmpty.full : ∀ (h : Nat) (t : STree κ ι h), NoEmpty h t → Full h t := by
  intro h
  induction h with
  | zero => intro t _; trivial
  | succ h ih =>
    intro (kids : List (κ × STree κ ι h)) ht
    exact ⟨ht.1, fun p hp => ih p.2 (ht.2 p hp)⟩

omit [LinearOrder κ] in
theorem NoEmpty.exists_item : ∀ (h : Nat) (t : STree κ ι h), NoEmpty h t → ∃ x, x ∈ items h t := by
  intro h
  induction h with
  | zero =>
    intro (l : List ι) ht
    exact List.exists_mem_of_ne_nil l ht
  | succ h ih =>
    intro (kids : List (κ × STree κ ι h)) ht
    obtain ⟨p, hp⟩ := List.exists_mem_of_ne_nil kids ht.1
    obtain ⟨x, hx⟩ := ih p.2 (ht.2 p hp)
    exact ⟨x, List.mem_flatMap.mpr ⟨p, hp, hx⟩⟩

/-- An edit keeps what holds of every node and of every leaf that is not left empty. -/
theorem edit_keeps {P : (h : Nat) → STree κ ι h → Prop} (k : κ) {new : List ι}
    (hnode : ∀ (h : Nat) (kids : List (κ × STree κ ι h)),
      P (h + 1) kids ↔ kids ≠ [] ∧ ∀ q ∈ kids, P h q.2)
    (hleaf : new ≠ [] → P 0 new) : ∀ (h : Nat) (t t' : STree κ ι h), P h t →
    STree.edit k new h t = some t' → P h t' := by
  intro h
  induction h with
  | zero =>
    intro t t' _ he
    simp only [STree.edit] at he
    split_ifs at he with hnew
    obtain rfl := Option.some.inj he
    exact hleaf fun hnil => hnew (List.isEmpty_iff.mpr hnil)
  | succ h ih =>
    intro (kids : List (κ × STree κ ι h)) t' ht he
    simp only [STree.edit] at he
    split at he
    · obtain rfl := Option.some.inj he
      exact ht
    · next A p B hf =>
      obtain ⟨-, hall⟩ := (hnode h kids).mp ht
      have hkids := focus_sides hf hall
      split at he
      · next t₁ ht₁ =>
        obtain rfl := Option.some.inj he
        have hrec := ih p.2 t₁ (hall p (focus_mem hf)) ht₁
        refine (hnode h _).mpr ⟨by simp, ?_⟩
        intro q hq
        rcases List.mem_append.mp hq with hq | hq
        · exact hkids q (Or.inl hq)
        · rcases List.mem_cons.mp hq with rfl | hq
          · exact hrec
          · exact hkids q (Or.inr hq)
      · split_ifs at he with hAB
        obtain rfl := Option.some.inj he
        refine (hnode h _).mpr ⟨by simpa [List.isEmpty_iff] using hAB, ?_⟩
        intro q hq
        exact hkids q (List.mem_append.mp hq)

theorem NoEmpty.edit (k : κ) (new : List ι) (h : Nat) (t t' : STree κ ι h) (ht : NoEmpty h t)
    (he : STree.edit k new h t = some t') : NoEmpty h t' :=
  edit_keeps (P := NoEmpty) k (fun _ _ => Iff.rfl) (fun hne => hne) h t t' ht he

theorem Full.edit (k : κ) (new : List ι) (h : Nat) (t t' : STree κ ι h) (ht : Full h t)
    (he : STree.edit k new h t = some t') : Full h t' :=
  edit_keeps (P := Full) k (fun _ _ => Iff.rfl) (fun _ => trivial) h t t' ht he

/-- A cut keeps what holds of every node, if it holds of the two new leaves. -/
theorem cut_keeps {P : (h : Nat) → STree κ ι h → Prop} (cap : Nat) (k : κ) {l r : List ι} (s : κ)
    (hnode : ∀ (h : Nat) (kids : List (κ × STree κ ι h)),
      P (h + 1) kids ↔ kids ≠ [] ∧ ∀ q ∈ kids, P h q.2)
    (hl : P 0 l) (hr : P 0 r) : ∀ (h : Nat) (t : STree κ ι h), P h t →
    P h (STree.cut cap k l r s h t).1 ∧ ∀ q ∈ (STree.cut cap k l r s h t).2, P h q.2 := by
  intro h
  induction h with
  | zero =>
    intro t _
    refine ⟨hl, ?_⟩
    rintro q ⟨⟩
    exact hr
  | succ h ih =>
    intro (kids : List (κ × STree κ ι h)) ht
    obtain ⟨hne, hall⟩ := (hnode h kids).mp ht
    obtain ⟨A, p, B, hf⟩ := focus_isSome Prod.fst k hne
    have hrest := focus_sides hf hall
    obtain ⟨hleft, hright⟩ := ih p.2 (hall p (focus_mem hf))
    rcases hc : STree.cut cap k l r s h p.2 with ⟨t, q⟩
    rw [hc] at hleft hright
    cases q with
    | none =>
      simp only [STree.cut, hf, hc]
      refine ⟨(hnode h _).mpr ⟨by simp, ?_⟩, by rintro q ⟨⟩⟩
      intro e he
      rcases List.mem_append.mp he with he | he
      · exact hrest e (Or.inl he)
      · rcases List.mem_cons.mp he with rfl | he
        · exact hleft
        · exact hrest e (Or.inr he)
    | some q =>
      have hK : ∀ e ∈ A ++ (p.1, t) :: q :: B, P h e.2 := by
        intro e he
        simp only [List.mem_append, List.mem_cons] at he
        rcases he with he | rfl | rfl | he
        · exact hrest e (Or.inl he)
        · exact hleft
        · exact hright e rfl
        · exact hrest e (Or.inr he)
      have hlen : 2 ≤ (A ++ (p.1, t) :: q :: B).length := by
        simp only [List.length_append, List.length_cons]
        omega
      simp only [STree.cut, hf, hc]
      generalize A ++ (p.1, t) :: q :: B = K at hK hlen ⊢
      split_ifs
      · exact ⟨(hnode h K).mpr ⟨List.ne_nil_of_length_pos (by omega), hK⟩, by rintro q ⟨⟩⟩
      · constructor
        · refine (hnode h _).mpr ⟨List.ne_nil_of_length_pos (by rw [List.length_take]; omega), ?_⟩
          exact fun e he => hK e (List.mem_of_mem_take he)
        · rintro e ⟨⟩
          refine (hnode h _).mpr ⟨List.ne_nil_of_length_pos (by rw [List.length_drop]; omega), ?_⟩
          exact fun e he => hK e (List.mem_of_mem_drop he)

/-- A tree without empty leaves, cut, and with a new root if need be. -/
theorem NoEmpty.grow_cut (key : ι → κ) (d : κ) (cap : Nat) (k : κ) {l r : List ι} (s : κ) (hl : l ≠ [])
    (hr : r ≠ []) {h : Nat} {t : STree κ ι h} (ht : NoEmpty h t) :
    NoEmpty _ (STree.grow key d h (STree.cut cap k l r s h t)).2 := by
  obtain ⟨hleft, hright⟩ := cut_keeps (P := NoEmpty) cap k s (fun _ _ => Iff.rfl) hl hr h t ht
  rcases hc : STree.cut cap k l r s h t with ⟨t', q⟩
  rw [hc] at hleft hright
  cases q with
  | none => exact hleft
  | some q =>
    refine ⟨List.cons_ne_nil _ _, ?_⟩
    intro e he
    rcases List.mem_cons.mp he with rfl | he
    · exact hleft
    · rw [List.mem_singleton.mp he]
      exact hright q rfl

/-- A root that does not give way keeps its level. -/
theorem mutate_of_not_givesWay {k : κ} {new : List ι} {h : Nat} {kids A B : List (κ × STree κ ι h)}
    {p : κ × STree κ ι h} (hf : focus Prod.fst k kids = some (A, p, B))
    (hgw : givesWay k new (h + 1) kids = false) :
    mutate k new (h + 1) kids =
      ⟨h + 1, A ++ ((STree.edit k new h p.2).toList.map fun t => (p.1, t)) ++ B⟩ := by
  simp only [givesWay, hf] at hgw
  simp only [mutate, hf]
  cases he : STree.edit k new h p.2 with
  | some t => simp
  | none =>
    rw [he] at hgw
    rcases hAB : A ++ B with _ | ⟨q, _ | ⟨q', rest⟩⟩
    · simp [hAB]
    · simp [hAB] at hgw
    · simp [hAB]

/-! ## 5. A cut keeps the order -/

/-- The two parts of a cut are ordered, and the separator of the part cut off lies between them. -/
structure CutOrdered (key : ι → κ) (h : Nat) (c : STree κ ι h × Option (κ × STree κ ι h)) :
    Prop where
  left : Ordered key h c.1
  left_noEmpty : NoEmpty h c.1
  right : ∀ q ∈ c.2, Ordered key h q.2 ∧ NoEmpty h q.2
  below : ∀ q ∈ c.2, ∀ x ∈ items h c.1, key x < q.1
  above : ∀ q ∈ c.2, ∀ x ∈ items h q.2, q.1 ≤ key x

theorem CutOrdered.of_whole {h : Nat} {K : List (κ × STree κ ι h)}
    (hK : Ordered key (h + 1) (K : List _)) (hne : NoEmpty (h + 1) (K : List _)) :
    CutOrdered key (h + 1) ((K : List _), none) :=
  ⟨hK, hne, by simp, by simp, by simp⟩

/-- Cutting an ordered list of children in two. -/
theorem CutOrdered.of_halves {h n : Nat} {K : List (κ × STree κ ι h)} (d : κ)
    (hK : Ordered key (h + 1) (K : List _)) (hn : n < K.length)
    (hleft : NoEmpty (h + 1) (K.take n : List _)) (hright : NoEmpty (h + 1) (K.drop n : List _)) :
    CutOrdered key (h + 1)
      ((K.take n : List _), some (headSep d (K.drop n), (K.drop n : List _))) := by
  obtain ⟨q, D, hD⟩ := List.exists_cons_of_ne_nil
    (List.ne_nil_of_length_pos (show 0 < (K.drop n).length by rw [List.length_drop]; omega))
  have hsep : headSep d (K.drop n) = q.1 := by rw [hD]; rfl
  have hpw := hK.1
  rw [← List.take_append_drop n K, List.pairwise_append] at hpw
  have hord := hK.sub (List.drop_sublist n K)
  refine ⟨hK.sub (List.take_sublist n K), hleft, ?_, ?_, ?_⟩
  · rintro e ⟨⟩
    exact ⟨hord, hright⟩
  · rintro e ⟨⟩ x hx
    obtain ⟨p, hp, hxp⟩ := List.mem_flatMap.mp hx
    rw [hsep]
    exact (hpw.2.2 p hp q (by rw [hD]; simp)).2 x hxp
  · rintro e ⟨⟩ x hx
    obtain ⟨p, hp, hxp⟩ := List.mem_flatMap.mp hx
    have hlow := (hord.2 p hp).2 x hxp
    rw [hsep]
    rw [hD] at hp hord
    rcases List.mem_cons.mp hp with rfl | hp
    · exact hlow
    · exact ((List.pairwise_cons.mp hord.1).1 p hp).1.trans hlow

theorem cut_mem (cap : Nat) (k : κ) (l r : List ι) (s : κ) (h : Nat) (t : STree κ ι h)
    (hfull : Full h t) :
    ∀ x ∈ cutItems h (cut cap k l r s h t), x ∈ items h t ∨ x ∈ l ++ r := by
  intro x hx
  rw [cut_items cap k l r s h t hfull] at hx
  rw [items_eq k h t hfull]
  simp only [List.mem_append] at hx ⊢
  tauto

theorem Ordered.cut (cap : Nat) (k : κ) {l r : List ι} {s : κ} (hl : l ≠ []) (hr : r ≠ [])
    (hls : l.Pairwise fun a b => key a < key b) (hrs : r.Pairwise fun a b => key a < key b)
    (hbelow : ∀ x ∈ l, key x < s) (habove : ∀ x ∈ r, s ≤ key x) :
    ∀ (h : Nat) (t : STree κ ι h), Ordered key h t → (0 < h → NoEmpty h t) →
      (∀ x ∈ l ++ r, Inside k (key x) h t) → CutOrdered key h (STree.cut cap k l r s h t) := by
  intro h
  induction h with
  | zero =>
    intro t _ _ _
    refine ⟨hls, hl, ?_, ?_, ?_⟩
    · rintro q ⟨⟩
      exact ⟨hrs, hr⟩
    · rintro q ⟨⟩ x hx
      exact hbelow x hx
    · rintro q ⟨⟩ x hx
      exact habove x hx
  | succ h ih =>
    intro (kids : List (κ × STree κ ι h)) ht hne hin
    have hne := hne (Nat.succ_pos h)
    obtain ⟨A, p, B, hf⟩ := focus_isSome Prod.fst k hne.1
    obtain ⟨hkids, -⟩ := focus_eq_some hf
    have hp : p ∈ kids := focus_mem hf
    obtain ⟨hin', hbounds⟩ := ht.bounds hf hin
    obtain ⟨hleft, hright⟩ := cut_keeps (P := NoEmpty) cap k s (fun _ _ => Iff.rfl) hl hr (h + 1) kids hne
    have hrec := ih p.2 (ht.2 p hp).1 (fun _ => hne.2 p hp) hin'
    have hmem := cut_mem cap k l r s h p.2 (hne.2 p hp).full
    have hpB : ∀ q ∈ B, p.1 ≤ q.1 := by
      have hpw := ht.1
      rw [hkids] at hpw
      intro q hq
      exact ((List.pairwise_cons.mp (List.pairwise_append.mp hpw).2.1).1 q hq).1
    have hlen : kids.length = A.length + B.length + 1 := by
      rw [hkids, List.length_append, List.length_cons]
      omega
    rw [hkids] at ht
    rcases hc : STree.cut cap k l r s h p.2 with ⟨t, q⟩
    rw [hc] at hrec hmem
    have ht₁ : ∀ x ∈ items h t, p.1 ≤ key x ∧ ∀ q ∈ B, key x < q.1 := by
      intro x hx
      exact hbounds x (hmem x (by simp [cutItems, hx]))
    -- the child's place is taken by one subtree or by two
    cases q with
    | none =>
      have hC : Ordered key (h + 1) ([(p.1, t)] : List _) := by
        refine ⟨List.pairwise_singleton _ _, ?_⟩
        intro e he
        obtain rfl := List.mem_singleton.mp he
        exact ⟨hrec.left, fun x hx => (ht₁ x hx).1⟩
      have hres := ht.replace hC (by simp) ?_
      · have hcut : STree.cut cap k l r s (h + 1) kids = ((A ++ [(p.1, t)] ++ B : List _), none) := by
          simp only [STree.cut, hf, hc, List.append_assoc, List.singleton_append]
          rfl
        rw [hcut] at hleft ⊢
        exact CutOrdered.of_whole hres hleft
      · intro e he q hq
        obtain rfl := List.mem_singleton.mp he
        exact ⟨hpB q hq, fun x hx => (ht₁ x hx).2 q hq⟩
    | some q =>
      obtain ⟨hqo, hqne⟩ := hrec.right q rfl
      have hq₁ : ∀ x ∈ items h q.2, p.1 ≤ key x ∧ ∀ e ∈ B, key x < e.1 := by
        intro x hx
        exact hbounds x (hmem x (by simp [cutItems, hx]))
      -- an item on each side puts the new separator in its place
      obtain ⟨x, hx⟩ := hrec.left_noEmpty.exists_item
      obtain ⟨y, hy⟩ := hqne.exists_item
      have hpq : p.1 ≤ q.1 := (ht₁ x hx).1.trans (hrec.below q rfl x hx).le
      have hqB : ∀ e ∈ B, q.1 ≤ e.1 := by
        intro e he
        exact (hrec.above q rfl y hy).trans ((hq₁ y hy).2 e he).le
      have hC : Ordered key (h + 1) ([(p.1, t), q] : List _) := by
        refine ⟨List.pairwise_pair.mpr ⟨hpq, hrec.below q rfl⟩, ?_⟩
        intro e he
        simp only [List.mem_cons, List.not_mem_nil, or_false] at he
        rcases he with rfl | rfl
        · exact ⟨hrec.left, fun x hx => (ht₁ x hx).1⟩
        · exact ⟨hqo, hrec.above e rfl⟩
      have hlow : ∀ e ∈ [(p.1, t), q], p.1 ≤ e.1 := by
        intro e he
        simp only [List.mem_cons, List.not_mem_nil, or_false] at he
        rcases he with rfl | rfl
        · exact le_rfl
        · exact hpq
      have hhigh : ∀ e ∈ [(p.1, t), q], ∀ b ∈ B, e.1 ≤ b.1 ∧ ∀ x ∈ items h e.2, key x < b.1 := by
        intro e he b hb
        simp only [List.mem_cons, List.not_mem_nil, or_false] at he
        rcases he with rfl | rfl
        · exact ⟨hpB b hb, fun x hx => (ht₁ x hx).2 b hb⟩
        · exact ⟨hqB b hb, fun x hx => (hq₁ x hx).2 b hb⟩
      have hres := ht.replace hC hlow hhigh
      have hall : A ++ [(p.1, t), q] ++ B = A ++ (p.1, t) :: q :: B := by simp
      rw [hall] at hres
      by_cases hcap : kids.length < cap
      · have hcut : STree.cut cap k l r s (h + 1) kids =
            ((A ++ (p.1, t) :: q :: B : List _), none) := by
          simp only [STree.cut, hf, hc, hcap, ↓reduceIte]
          rfl
        rw [hcut] at hleft ⊢
        exact CutOrdered.of_whole hres hleft
      · generalize hK : A ++ (p.1, t) :: q :: B = K at hres
        have hKlen : 2 ≤ K.length := by
          rw [← hK]
          simp only [List.length_append, List.length_cons]
          omega
        have hcut : STree.cut cap k l r s (h + 1) kids =
            ((K.take (max 1 (K.length / 2)) : List _),
              some (headSep s (K.drop (max 1 (K.length / 2))),
                (K.drop (max 1 (K.length / 2)) : List _))) := by
          simp only [STree.cut, hf, hc, hcap, ↓reduceIte, hK]
          rfl
        rw [hcut] at hleft hright ⊢
        exact CutOrdered.of_halves s hres (by omega) hleft (hright _ rfl)

theorem Ordered.firstSep_le (d : κ) : ∀ (h : Nat) (t : STree κ ι h), Ordered key h t →
    ∀ x ∈ items h t, firstSep key d h t ≤ key x := by
  intro h
  cases h with
  | zero =>
    intro (l : List ι) ht x hx
    cases l with
    | nil => simp [items] at hx
    | cons y l =>
      rcases List.mem_cons.mp hx with rfl | hx
      · exact le_rfl
      · exact ((List.pairwise_cons.mp ht).1 x hx).le
  | succ h =>
    intro (kids : List (κ × STree κ ι h)) ht x hx
    cases kids with
    | nil => simp [items] at hx
    | cons p kids =>
      obtain ⟨q, hq, hxq⟩ := List.mem_flatMap.mp hx
      have hlow := (ht.2 q hq).2 x hxq
      rcases List.mem_cons.mp hq with rfl | hq
      · exact hlow
      · exact ((List.pairwise_cons.mp ht.1).1 q hq).1.trans hlow

/-- A new root over the two parts of a cut. -/
theorem CutOrdered.grow {h : Nat} {c : STree κ ι h × Option (κ × STree κ ι h)} (d : κ)
    (hc : CutOrdered key h c) :
    Ordered key _ (STree.grow key d h c).2 ∧ NoEmpty _ (STree.grow key d h c).2 := by
  obtain ⟨t, q⟩ := c
  cases q with
  | none => exact ⟨hc.left, hc.left_noEmpty⟩
  | some q =>
    obtain ⟨hqo, hqne⟩ := hc.right q rfl
    obtain ⟨x, hx⟩ := hc.left_noEmpty.exists_item
    have hfirst := hc.left.firstSep_le d
    have hle : firstSep key d h t ≤ q.1 := (hfirst x hx).trans (hc.below q rfl x hx).le
    have hgrow : STree.grow key d h (t, some q) =
        ⟨h + 1, ([(firstSep key d h t, t), q] : List _)⟩ := rfl
    rw [hgrow]
    constructor
    · refine ⟨List.pairwise_pair.mpr ⟨hle, hc.below q rfl⟩, ?_⟩
      intro e he
      simp only [List.mem_cons, List.not_mem_nil, or_false] at he
      rcases he with rfl | rfl
      · exact ⟨hc.left, hfirst⟩
      · exact ⟨hqo, hc.above e rfl⟩
    · refine ⟨by simp, ?_⟩
      intro e he
      simp only [List.mem_cons, List.not_mem_nil, or_false] at he
      rcases he with rfl | rfl
      · exact hc.left_noEmpty
      · exact hqne

end Btrfs.Lib.STree
