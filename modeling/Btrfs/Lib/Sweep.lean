/-
  Btrfs/Lib/Sweep.lean
  ====================
  **Sweeping a band of keys out of a search tree.**

  A sweep removes a band of neighbouring items leaf by leaf.  It never looks for the
  next leaf: it routes one fixed key, the lower end of the band, again and again, and
  takes the marked items out of the leaf it gets to.  Whether that reaches the whole
  band depends on the tree: when the routed leaf is used up and dropped, the key is
  routed to the leaf on the right only inside a node that has nothing to the left.
  `Clears` says exactly that, and one edit neither creates nor destroys it.
-/
import Btrfs.Lib.SearchOrder

namespace Btrfs.Lib.STree

variable {κ ι : Type} [LinearOrder κ] {key : ι → κ} {m : ι → Bool} {k : κ}

/-- The marked items form a band of keys that begins at `k`. -/
structure IsBand (key : ι → κ) (m : ι → Bool) (k : κ) : Prop where
  from_key : ∀ x, m x = true → k ≤ key x
  convex : ∀ x y z, m x = true → m z = true → key x ≤ key y → key y ≤ key z → m y = true

/-- No item is marked. -/
def Clean (m : ι → Bool) (l : List ι) : Prop := ∀ x ∈ l, m x = false

/-- Every item is marked. -/
def Marked (m : ι → Bool) (l : List ι) : Prop := ∀ x ∈ l, m x = true

/-- Repeated edits at the leaf `k` is routed to use the whole tree up: the route is the leftmost
    one, and every leaf has items, all of them marked. -/
def Gone (m : ι → Bool) (k : κ) : (h : Nat) → STree κ ι h → Prop
  | 0, (l : List ι) => l ≠ [] ∧ Marked m l
  | h + 1, (kids : List (κ × STree κ ι h)) =>
    match focus Prod.fst k kids with
    | none => False
    | some (A, _, _) => A = [] ∧ ∀ q ∈ kids, Gone m k h q.2

/-- Repeated edits at the leaf `k` is routed to take out every marked item.  On each level nothing
    marked is right of the routed child, or the routed child is the first, it and its neighbours
    are used up one by one, and the marked items end below the next. -/
def Clears (m : ι → Bool) (k : κ) : (h : Nat) → STree κ ι h → Prop
  | 0, (l : List ι) => ∃ x ∈ l, m x = true
  | h + 1, (kids : List (κ × STree κ ι h)) =>
    match focus Prod.fst k kids with
    | none => False
    | some (A, p, B) =>
      Clears m k h p.2 ∧ Clean m (B.flatMap fun q => items h q.2) ∨
      A = [] ∧ Gone m k h p.2 ∧ ∃ X q Y, B = X ++ q :: Y ∧ (∀ x ∈ X, Gone m k h x.2) ∧
        Clears m k h q.2 ∧ Clean m (Y.flatMap fun q => items h q.2)

omit [LinearOrder κ] in
theorem not_clean {l : List ι} : ¬ Clean m l ↔ ∃ x ∈ l, m x = true := by
  simp [Clean]

omit [LinearOrder κ] in
theorem clean_append {l r : List ι} : Clean m (l ++ r) ↔ Clean m l ∧ Clean m r := by
  simp [Clean, or_imp, forall_and]

theorem leafAt_subset (k : κ) (h : Nat) (t : STree κ ι h) (hfull : Full h t) :
    ∀ x ∈ leafAt k h t, x ∈ items h t := by
  intro x hx
  rw [items_eq k h t hfull]
  simp [hx]

theorem Gone.leaf : ∀ (h : Nat) (t : STree κ ι h), Gone m k h t →
    ∃ x ∈ leafAt k h t, m x = true := by
  intro h
  induction h with
  | zero =>
    intro t ht
    obtain ⟨x, hx⟩ := List.exists_mem_of_ne_nil _ ht.1
    exact ⟨x, hx, ht.2 x hx⟩
  | succ h ih =>
    intro (kids : List (κ × STree κ ι h)) ht
    cases hf : focus Prod.fst k kids with
    | none => simp only [Gone, hf] at ht
    | some f =>
      obtain ⟨A, p, B⟩ := f
      simp only [Gone, hf] at ht
      simp only [leafAt, hf]
      exact ih p.2 (ht.2 p (focus_mem hf))

theorem Gone.clears : ∀ (h : Nat) (t : STree κ ι h), Gone m k h t → Clears m k h t := by
  intro h
  induction h with
  | zero => exact fun t ht => ht.leaf 0 t
  | succ h ih =>
    intro (kids : List (κ × STree κ ι h)) ht
    cases hf : focus Prod.fst k kids with
    | none => simp only [Gone, hf] at ht
    | some f =>
      obtain ⟨A, p, B⟩ := f
      obtain ⟨hl, -⟩ := focus_eq_some hf
      simp only [Gone, hf] at ht
      simp only [Clears, hf]
      have hall : ∀ q ∈ p :: B, Gone m k h q.2 := fun q hq => ht.2 q (by rw [hl]; simp [hq])
      rcases List.eq_nil_or_concat B with rfl | ⟨X, q, hB⟩
      · exact Or.inl ⟨ih p.2 (hall p (by simp)), by simp [Clean]⟩
      · rw [List.concat_eq_append] at hB
        subst hB
        refine Or.inr ⟨ht.1, hall p (by simp), X, q, [], rfl, ?_, ih q.2 (hall q (by simp)), ?_⟩
        · intro x hx
          exact hall x (by simp [hx])
        · simp [Clean]

/-- A tree that a sweep clears has a marked item in the routed leaf. -/
theorem Clears.leaf : ∀ (h : Nat) (t : STree κ ι h), Clears m k h t →
    ∃ x ∈ leafAt k h t, m x = true := by
  intro h
  induction h with
  | zero => intro t hc; exact hc
  | succ h ih =>
    intro (kids : List (κ × STree κ ι h)) hc
    cases hf : focus Prod.fst k kids with
    | none => simp only [Clears, hf] at hc
    | some f =>
      obtain ⟨A, p, B⟩ := f
      simp only [Clears, hf] at hc
      simp only [leafAt, hf]
      rcases hc with ⟨hc, -⟩ | ⟨-, hg, -⟩
      · exact ih p.2 hc
      · exact hg.leaf h p.2

/-! ## 2. One edit -/

/-- The routed leaf with its marked items taken out. -/
structure Strips (m : ι → Bool) (l new : List ι) : Prop where
  clean : Clean m new
  nil_iff : new = [] ↔ Marked m l

section edit

variable {h : Nat} {kids A B : List (κ × STree κ ι h)} {p : κ × STree κ ι h} {new : List ι}

/-- Nothing left of the routed child is marked. -/
theorem clean_left (hband : IsBand key m k) (hord : Ordered key (h + 1) kids)
    (hf : focus Prod.fst k kids = some (A, p, B)) : Clean m (A.flatMap fun q => items h q.2) := by
  obtain ⟨hl, -⟩ := focus_eq_some hf
  intro x hx
  obtain ⟨q, hq, hxq⟩ := List.mem_flatMap.mp hx
  have hpw := hord.1
  rw [hl] at hpw
  have hlt := ((List.pairwise_append.mp hpw).2.2 q hq p (by simp)).2 x hxq
  have hk := hlt.trans_le (focus_le hf (List.ne_nil_of_mem hq))
  by_contra hmx
  exact absurd (hband.from_key x (by simpa using hmx)) (not_le.mpr hk)

/-- With the routed child dropped, the key is routed to the neighbour on the left, and to the one
    on the right only if there is none. -/
theorem focus_dropped (hord : Ordered key (h + 1) kids)
    (hf : focus Prod.fst k kids = some (A, p, B)) :
    (∀ A' a, A = A' ++ [a] → focus Prod.fst k (A ++ B) = some (A', a, B)) ∧
    (∀ b B', A = [] → B = b :: B' → focus Prod.fst k (A ++ B) = some ([], b, B')) := by
  obtain ⟨hl, -⟩ := focus_eq_some hf
  have hB : ∀ q ∈ B, k < q.1 := focus_gt (hord.1.imp fun h => h.1) hf
  constructor
  · rintro A' a rfl
    have hpk : p.1 ≤ k := focus_le hf (by simp)
    have hpw := hord.1
    rw [hl] at hpw
    have hle : ∀ c ∈ A' ++ [a], c.1 ≤ k := by
      intro c hc
      exact ((List.pairwise_append.mp hpw).2.2 c hc p (by simp)).1.trans hpk
    exact focus_drop_left (fun c hc => hle c (by simp [hc])) (hle a (by simp)) hB
  · rintro b B' rfl rfl
    exact focus_drop_right (hB b (by simp))

/-- The routed child is used up and dropped: the sweep goes on only if it was the first, or nothing
    marked is left. -/
theorem clears_drop (hband : IsBand key m k) (hfull : Full (h + 1) kids)
    (hord : Ordered key (h + 1) kids) (hf : focus Prod.fst k kids = some (A, p, B))
    (hp : Gone m k h p.2) (hAB : A ++ B ≠ []) :
    (Gone m k (h + 1) (A ++ B : List _) ↔ Gone m k (h + 1) kids) ∧
    (Clears m k (h + 1) (A ++ B : List _) ∨ Clean m (items (h + 1) (A ++ B : List _)) ↔
      Clears m k (h + 1) kids) := by
  obtain ⟨hl, -⟩ := focus_eq_some hf
  obtain ⟨hleft, hright⟩ := focus_dropped hord hf
  have hA := clean_left hband hord hf
  have hpc := hp.clears h p.2
  have hclean : Clean m (items (h + 1) (A ++ B : List _)) ↔
      Clean m (B.flatMap fun q => items h q.2) := by
    simp only [items, List.flatMap_append, clean_append, hA, true_and]
  rw [hclean]
  simp only [Gone, Clears, hf, hp, hpc, true_and]
  rcases List.eq_nil_or_concat A with rfl | ⟨A', a, hAa⟩
  · cases B with
    | nil => exact absurd rfl hAB
    | cons b B' =>
      simp only [List.nil_append] at hl
      have hfb := hright b B' rfl rfl
      rw [List.nil_append] at hfb
      simp only [List.nil_append, hfb, true_and, hl, List.mem_cons, forall_eq_or_imp, hp]
      -- the first of the children that are left takes the part of the routed one
      constructor
      · rintro ((⟨hc, hY⟩ | ⟨hg, X, q, Y, rfl, hX, hq, hY⟩) | hB)
        · exact Or.inr ⟨[], b, B', rfl, by simp, hc, hY⟩
        · refine Or.inr ⟨b :: X, q, Y, rfl, ?_, hq, hY⟩
          intro x hx
          rcases List.mem_cons.mp hx with rfl | hx
          · exact hg
          · exact hX x hx
        · exact Or.inl hB
      · rintro (hB | ⟨X, q, Y, hsplit, hX, hq, hY⟩)
        · exact Or.inr hB
        · left
          cases X with
          | nil =>
            obtain ⟨rfl, rfl⟩ := List.cons.inj hsplit
            exact Or.inl ⟨hq, hY⟩
          | cons x X =>
            obtain ⟨rfl, rfl⟩ := List.cons.inj hsplit
            exact Or.inr ⟨hX b (by simp), X, q, Y, rfl, fun y hy => hX y (by simp [hy]), hq, hY⟩
  · -- the next leaf on the left holds nothing marked
    rw [List.concat_eq_append] at hAa
    subst hAa
    rw [hleft A' a rfl]
    have hak : a ∈ kids := by rw [hl]; simp
    have hnone : ¬ ∃ x ∈ leafAt k h a.2, m x = true := by
      rintro ⟨x, hx, hmx⟩
      have := leafAt_subset k h a.2 (hfull.2 a hak) x hx
      rw [hA x (List.mem_flatMap.mpr ⟨a, by simp, this⟩)] at hmx
      cases hmx
    have hng : ¬ Gone m k h a.2 := fun hg => hnone (hg.leaf h a.2)
    have hnc : ¬ Clears m k h a.2 := fun hc => hnone (hc.leaf h a.2)
    have hne : ¬ A' ++ [a] = [] := by simp
    constructor
    · constructor
      · rintro ⟨-, hall⟩
        exact absurd (hall a (by simp)) hng
      · rintro ⟨hnil, -⟩
        exact absurd hnil hne
    · constructor
      · rintro ((⟨hc, -⟩ | ⟨-, hg, -⟩) | hB)
        · exact absurd hc hnc
        · exact absurd hg hng
        · exact Or.inl hB
      · rintro (hB | ⟨hnil, -⟩)
        · exact Or.inr hB
        · exact absurd hnil hne

/-- What one edit does to `Gone` and to `Clears`, below the root. -/
theorem clears_edit (hband : IsBand key m k) : ∀ (h : Nat) (t : STree κ ι h), Full h t →
    Ordered key h t → (∃ x ∈ leafAt k h t, m x = true) → Strips m (leafAt k h t) new →
    (edit k new h t = none → Gone m k h t) ∧
    ∀ t', edit k new h t = some t' → (Gone m k h t' ↔ Gone m k h t) ∧
      (Clears m k h t' ∨ Clean m (items h t') ↔ Clears m k h t) := by
  intro h
  induction h with
  | zero =>
    intro (l : List ι) _ _ hex hnew
    simp only [STree.edit]
    constructor
    · intro he
      split_ifs at he with hnil
      obtain ⟨x, hx, -⟩ := hex
      exact ⟨List.ne_nil_of_mem hx, hnew.nil_iff.mp (List.isEmpty_iff.mp hnil)⟩
    · intro t' he
      split_ifs at he with hnil
      obtain rfl := Option.some.inj he
      refine ⟨⟨?_, ?_⟩, fun _ => hex, fun _ => Or.inr hnew.clean⟩
      · rintro ⟨hne, hm⟩
        obtain ⟨x, hx⟩ := List.exists_mem_of_ne_nil _ hne
        have := hnew.clean x hx
        rw [hm x hx] at this
        cases this
      · rintro ⟨-, hm⟩
        exact absurd (List.isEmpty_iff.mpr (hnew.nil_iff.mpr hm)) hnil
  | succ h ih =>
    intro (kids : List (κ × STree κ ι h)) hfull hord hex hnew
    obtain ⟨A, p, B, hf⟩ := focus_isSome Prod.fst k hfull.1
    obtain ⟨hl, -⟩ := focus_eq_some hf
    have hp : p ∈ kids := focus_mem hf
    simp only [leafAt, hf] at hex hnew
    obtain ⟨ihn, ihs⟩ := ih p.2 (hfull.2 p hp) (hord.2 p hp).1 hex hnew
    have hA := clean_left hband hord hf
    simp only [STree.edit, hf]
    cases he : STree.edit k new h p.2 with
    | some t₁ =>
      refine ⟨fun hnone => absurd hnone (Option.some_ne_none _), ?_⟩
      intro t' ht'
      obtain rfl := Option.some.inj ht'
      obtain ⟨hgone, hrec⟩ := ihs t₁ he
      have hclean : Clean m (items (h + 1) (A ++ (p.1, t₁) :: B : List _)) ↔
          Clean m (items h t₁) ∧ Clean m (B.flatMap fun q => items h q.2) := by
        simp only [items, List.flatMap_append, List.flatMap_cons, clean_append, hA, true_and]
      rw [hclean]
      simp only [Gone, Clears, focus_replace (p.1, t₁) hf rfl, hf, hgone]
      constructor
      · rw [hl]
        simp only [List.mem_append, List.mem_cons, or_imp, forall_and, forall_eq, hgone]
      · constructor
        · rintro ((⟨hc, hB⟩ | hrest) | ⟨hc, hB⟩)
          · exact Or.inl ⟨hrec.mp (Or.inl hc), hB⟩
          · exact Or.inr hrest
          · exact Or.inl ⟨hrec.mp (Or.inr hc), hB⟩
        · rintro (⟨hc, hB⟩ | hrest)
          · rcases hrec.mpr hc with hc | hc
            · exact Or.inl (Or.inl ⟨hc, hB⟩)
            · exact Or.inr ⟨hc, hB⟩
          · exact Or.inl (Or.inr hrest)
    | none =>
      have hpg := ihn he
      constructor
      · intro hc
        split_ifs at hc with hAB
        rw [List.isEmpty_iff, List.append_eq_nil_iff] at hAB
        obtain ⟨rfl, rfl⟩ := hAB
        simp only [Gone, hf]
        refine ⟨trivial, ?_⟩
        intro q hq
        rw [hl] at hq
        obtain rfl : q = p := by simpa using hq
        exact hpg
      · intro t' ht'
        split_ifs at ht' with hAB
        obtain rfl := Option.some.inj ht'
        exact clears_drop hband hfull hord hf hpg (by simpa [List.isEmpty_iff] using hAB)

end edit

/-! ## 3. One edit at the root -/

theorem focus_singleton {α : Type} (sep : α → κ) (k : κ) (q : α) :
    focus sep k [q] = some ([], q, []) := by
  obtain ⟨A, a, B, hf⟩ := focus_isSome sep k (List.cons_ne_nil q [])
  obtain ⟨hl, -⟩ := focus_eq_some hf
  rw [hf]
  cases A with
  | nil => simpa [eq_comm] using hl
  | cons c A => simp at hl

/-- **One edit neither makes nor breaks a sweep.**  The tree after the edit can be cleared, or is
    clean, exactly when the tree before it could be cleared. -/
theorem clears_mutate (hband : IsBand key m k) {new : List ι} {h : Nat} {t : STree κ ι h}
    (hfull : Full h t) (hord : Ordered key h t) (hex : ∃ x ∈ leafAt k h t, m x = true)
    (hnew : Strips m (leafAt k h t) new) :
    Clears m k _ (mutate k new h t).2 ∨ Clean m (mutate k new h t).items ↔ Clears m k h t := by
  cases h with
  | zero => exact ⟨fun _ => hex, fun _ => Or.inr hnew.clean⟩
  | succ h =>
    obtain ⟨hnone, hsome⟩ := clears_edit hband (h + 1) t hfull hord hex hnew
    rcases mutate_cases k new h t with ⟨t', he, hm⟩ | ⟨q, hq, he, hm⟩ | ⟨he, hm⟩
    · rw [hm]
      exact (hsome t' he).2
    · -- the root with a single child counts as the child
      rw [hm, ← (hsome _ he).2]
      have hone : Clears m k (h + 1) ([q] : List _) ↔ Clears m k h q.2 := by
        simp [Clears, focus_singleton, Clean]
      have hitems : items (h + 1) ([q] : List _) = items h q.2 := by simp [items]
      rw [hone, hitems]
      rfl
    · -- the last leaf is gone, and all of it was marked
      rw [hm]
      refine ⟨fun _ => (hnone he).clears (h + 1) t, fun _ => Or.inr ?_⟩
      intro x hx
      simp [Any.items, items] at hx

/-! ## 4. Items beyond a marked one -/

/-- In a tree without empty leaves whose items are all beyond `k`, the key is routed to the first
    child. -/
theorem focus_front {h : Nat} {kids A B : List (κ × STree κ ι h)} {p : κ × STree κ ι h}
    (hne : NoEmpty (h + 1) kids) (hord : Ordered key (h + 1) kids)
    (hge : ∀ x ∈ items (h + 1) kids, k ≤ key x) (hf : focus Prod.fst k kids = some (A, p, B)) :
    A = [] := by
  obtain ⟨hl, -⟩ := focus_eq_some hf
  by_contra hA
  obtain ⟨a, ha⟩ := List.exists_mem_of_ne_nil A hA
  have hak : a ∈ kids := by rw [hl]; simp [ha]
  obtain ⟨x, hx⟩ := (hne.2 a hak).exists_item
  have hpw := hord.1
  rw [hl] at hpw
  -- a child to the left would hold a key below `k`
  have hlt := ((List.pairwise_append.mp hpw).2.2 a ha p (by simp)).2 x hx
  have hxk := hge x (List.mem_flatMap.mpr ⟨a, hak, hx⟩)
  exact absurd hxk (not_le.mpr (lt_of_lt_of_le hlt (focus_le hf hA)))

theorem gone_of_marked : ∀ (h : Nat) (t : STree κ ι h), NoEmpty h t → Ordered key h t →
    (∀ x ∈ items h t, k ≤ key x) → Marked m (items h t) → Gone m k h t := by
  intro h
  induction h with
  | zero => intro t hne _ _ hm; exact ⟨hne, hm⟩
  | succ h ih =>
    intro (kids : List (κ × STree κ ι h)) hne hord hge hm
    obtain ⟨A, p, B, hf⟩ := focus_isSome Prod.fst k hne.1
    have hmem : ∀ q ∈ kids, ∀ x ∈ items h q.2, x ∈ items (h + 1) kids :=
      fun q hq x hx => List.mem_flatMap.mpr ⟨q, hq, hx⟩
    simp only [Gone, hf]
    refine ⟨focus_front hne hord hge hf, ?_⟩
    intro q hq
    apply ih q.2 (hne.2 q hq) (hord.2 q hq).1
    · exact fun x hx => hge x (hmem q hq x hx)
    · exact fun x hx => hm x (hmem q hq x hx)

omit [LinearOrder κ] in
/-- The last child with something marked. -/
theorem split_last_marked {h : Nat} : ∀ (kids : List (κ × STree κ ι h)),
    (∃ x ∈ kids.flatMap fun q => items h q.2, m x = true) →
    ∃ X q Y, kids = X ++ q :: Y ∧ (∃ x ∈ items h q.2, m x = true) ∧
      Clean m (Y.flatMap fun q => items h q.2) := by
  intro kids
  induction kids with
  | nil => rintro ⟨x, hx, -⟩; simp at hx
  | cons p kids ih =>
    intro hex
    by_cases hc : Clean m (kids.flatMap fun q => items h q.2)
    · refine ⟨[], p, kids, rfl, ?_, hc⟩
      obtain ⟨x, hx, hmx⟩ := hex
      rw [List.flatMap_cons, List.mem_append] at hx
      rcases hx with hx | hx
      · exact ⟨x, hx, hmx⟩
      · rw [hc x hx] at hmx
        cases hmx
    · obtain ⟨X, q, Y, rfl, hq, hY⟩ := ih (not_clean.mp hc)
      exact ⟨p :: X, q, Y, rfl, hq, hY⟩

/-- With every item beyond a marked one, what is marked stands at the front, and a sweep clears the
    tree. -/
theorem clears_beyond (hband : IsBand key m k) {y : ι} (hy : m y = true) :
    ∀ (h : Nat) (t : STree κ ι h), NoEmpty h t → Ordered key h t →
      (∀ x ∈ items h t, key y ≤ key x) → (∃ x ∈ items h t, m x = true) → Clears m k h t := by
  intro h
  induction h with
  | zero => intro t _ _ _ hex; exact hex
  | succ h ih =>
    intro (kids : List (κ × STree κ ι h)) hne hord hge hex
    have hk : ∀ x ∈ items (h + 1) kids, k ≤ key x :=
      fun x hx => (hband.from_key y hy).trans (hge x hx)
    obtain ⟨A, p, B, hf⟩ := focus_isSome Prod.fst k hne.1
    obtain ⟨hl, -⟩ := focus_eq_some hf
    have hA := focus_front hne hord hk hf
    obtain ⟨X, q, Y, hsplit, ⟨z, hz, hmz⟩, hY⟩ := split_last_marked kids hex
    have hmem : ∀ c ∈ kids, ∀ x ∈ items h c.2, x ∈ items (h + 1) kids :=
      fun c hc x hx => List.mem_flatMap.mpr ⟨c, hc, hx⟩
    have hqk : q ∈ kids := by rw [hsplit]; simp
    have hq : Clears m k h q.2 :=
      ih q.2 (hne.2 q hqk) (hord.2 q hqk).1 (fun x hx => hge x (hmem q hqk x hx)) ⟨z, hz, hmz⟩
    have hpw := hord.1
    rw [hsplit] at hpw
    -- the children before the last marked item hold nothing else
    have hX : ∀ c ∈ X, Gone m k h c.2 := by
      intro c hc
      have hck : c ∈ kids := by rw [hsplit]; simp [hc]
      apply gone_of_marked h c.2 (hne.2 c hck) (hord.2 c hck).1
      · exact fun x hx => hk x (hmem c hck x hx)
      · intro x hx
        have hlt := ((List.pairwise_append.mp hpw).2.2 c hc q (by simp)).2 x hx
        have hxz := (hlt.trans_le ((hord.2 q hqk).2 z hz)).le
        exact hband.convex y x z hy hmz (hge x (hmem c hck x hx)) hxz
    simp only [Clears, hf]
    subst hA
    rw [hl, List.nil_append] at hsplit
    cases X with
    | nil =>
      obtain ⟨rfl, rfl⟩ := List.cons.inj hsplit
      exact Or.inl ⟨hq, hY⟩
    | cons c X =>
      obtain ⟨rfl, rfl⟩ := List.cons.inj hsplit
      exact Or.inr ⟨rfl, hX p (by simp), X, q, Y, rfl, fun x hx => hX x (by simp [hx]), hq, hY⟩

/-- When an edit leaves a root over leaves, and the routed leaf has a marked item again, the sweep
    has come to the leaves at the front. -/
theorem clears_again (hband : IsBand key m k) {new : List ι} {h : Nat}
    {kids : List (κ × STree κ ι h)} {s : STree κ ι 1} (hne : NoEmpty (h + 1) kids)
    (hord : Ordered key (h + 1) kids) (hex : ∃ x ∈ leafAt k (h + 1) kids, m x = true)
    (hnew : Strips m (leafAt k (h + 1) kids) new) (hmut : mutate k new (h + 1) kids = ⟨1, s⟩)
    (hagain : ∃ x ∈ leafAt k 1 s, m x = true) : Clears m k 1 s := by
  obtain ⟨A, p, B, hf⟩ := focus_isSome Prod.fst k hne.1
  obtain ⟨hl, -⟩ := focus_eq_some hf
  have hp : p ∈ kids := focus_mem hf
  have hA := clean_left hband hord hf
  have hpw := hord.1
  rw [hl] at hpw
  simp only [leafAt, hf] at hex hnew
  obtain ⟨y, hy, hmy⟩ := hex
  have hyp := leafAt_subset k h p.2 (hne.2 p hp).full y hy
  have hyB : ∀ q ∈ B, ∀ x ∈ items h q.2, key y ≤ key x := by
    intro q hq x hx
    have hqk : q ∈ kids := by rw [hl]; simp [hq]
    have hlt := ((List.pairwise_cons.mp (List.pairwise_append.mp hpw).2.1).1 q hq).2 y hyp
    exact (hlt.trans_le ((hord.2 q hqk).2 x hx)).le
  obtain ⟨x, hx, hmx⟩ := hagain
  have hAx : ∀ q ∈ A, x ∉ items h q.2 := by
    intro q hq hxq
    rw [hA x (List.mem_flatMap.mpr ⟨q, hq, hxq⟩)] at hmx
    cases hmx
  simp only [mutate, hf] at hmut
  cases he : STree.edit k new h p.2 with
  | some t₁ =>
    -- the routed leaf is still there, without its marked items
    rw [he] at hmut
    cases hmut
    simp only [leafAt, focus_replace (p.1, t₁) hf rfl] at hx
    simp only [STree.edit] at he
    split_ifs at he
    obtain rfl := Option.some.inj he
    rw [hnew.clean x hx] at hmx
    cases hmx
  | none =>
    rw [he] at hmut
    simp only at hmut
    rcases hAB : A ++ B with _ | ⟨q, _ | ⟨q', rest⟩⟩
    · rw [hAB] at hmut
      cases hmut
      simp [leafAt] at hx
    · rw [hAB] at hmut
      cases hmut
      have hq : q ∈ A ++ B := by rw [hAB]; simp
      have hqk : q ∈ kids := by
        rw [hl]
        rcases List.mem_append.mp hq with hq | hq <;> simp [hq]
      have hxq := leafAt_subset k 1 q.2 (hne.2 q hqk).full x hx
      rcases List.mem_append.mp hq with hq | hq
      · exact absurd hxq (hAx q hq)
      · exact clears_beyond hband hmy 1 q.2 (hne.2 q hqk) (hord.2 q hqk).1 (hyB q hq) ⟨x, hxq, hmx⟩
    · rw [hAB] at hmut
      cases hmut
      rw [← hAB] at hx ⊢
      obtain ⟨hleft, -⟩ := focus_dropped hord hf
      rcases List.eq_nil_or_concat A with rfl | ⟨A', a, hAa⟩
      · have hsub : B.Sublist kids := by
          rw [hl]
          exact List.sublist_cons_self p B
        have hB : B ≠ [] := by
          rintro rfl
          cases hAB
        have hneB : NoEmpty 1 (B : List _) := ⟨hB, fun q hq => hne.2 q (hsub.subset hq)⟩
        apply clears_beyond hband hmy 1 (B : List _) hneB (hord.sub hsub)
        · intro z hz
          obtain ⟨q, hq, hzq⟩ := List.mem_flatMap.mp hz
          exact hyB q hq z hzq
        · exact ⟨x, leafAt_subset k 1 (B : List _) hneB.full x hx, hmx⟩
      · rw [List.concat_eq_append] at hAa
        simp only [leafAt, hleft A' a hAa] at hx
        exact absurd hx (hAx a (by rw [hAa]; simp))

end Btrfs.Lib.STree
