/-
  Btrfs/Lib/SearchTree.lean
  =========================
  **Multiway search trees of uniform height** — contents, routing and edits, without
  any storage.

  A tree of height `0` is a leaf, a list of items; one of height `h + 1` is a list of
  children of height `h`, each under a separator.  A key is routed at each node to the
  last child whose separator does not exceed it (`focus`), or to the first child when
  every separator does.  The routed leaf splits the in-order contents in three:
  what lies `before` it, its own items (`leafAt`) and what lies `after` it.  Every edit
  below replaces the middle part and nothing else, whatever nodes it splits, drops or
  merges; this needs no order on the tree.  The order invariant (`Ordered`) then places
  the key between the two outer parts.
-/
import Mathlib

namespace Btrfs.Lib

/-! ## 1. Routing in one node -/

section focus

variable {κ α β : Type} [LinearOrder κ]

/-- The index a key is routed to: the last member of the leading run of separators that do not
    exceed it, or `0` when that run is empty. -/
def route (sep : α → κ) (k : κ) (l : List α) : Nat :=
  (l.takeWhile fun a => decide (sep a ≤ k)).length - 1

/-- The member a key is routed to, with the members on either side. -/
def focus (sep : α → κ) (k : κ) (l : List α) : Option (List α × α × List α) :=
  match l.drop (route sep k l) with
  | [] => none
  | a :: r => some (l.take (route sep k l), a, r)

variable {sep : α → κ} {k : κ} {l A B : List α} {a : α}

theorem route_nil_run {a : α} {r : List α} (h : ¬ sep a ≤ k) : route sep k (a :: r) = 0 := by
  simp [route, h]

theorem route_run (hA : ∀ b ∈ A, sep b ≤ k) (ha : sep a ≤ k)
    (hB : ∀ b ∈ B.head?, ¬ sep b ≤ k) : route sep k (A ++ a :: B) = A.length := by
  have hall : ∀ b ∈ A, decide (sep b ≤ k) = true := by
    intro b hb
    exact decide_eq_true (hA b hb)
  have htail : B.takeWhile (fun b => decide (sep b ≤ k)) = [] := by
    cases B with
    | nil => rfl
    | cons b B => simp [hB b rfl]
  rw [route, List.takeWhile_append_of_pos hall]
  simp [ha, htail]

/-- The two ways a key is routed: before every separator, or to the end of the leading run. -/
theorem focus_cases (sep : α → κ) (k : κ) {l : List α} (hl : l ≠ []) :
    (∃ a B, l = a :: B ∧ ¬ sep a ≤ k ∧ focus sep k l = some ([], a, B)) ∨
    (∃ A a B, l = A ++ a :: B ∧ (∀ b ∈ A, sep b ≤ k) ∧ sep a ≤ k ∧
      (∀ b ∈ B.head?, ¬ sep b ≤ k) ∧ focus sep k l = some (A, a, B)) := by
  have hsplit := List.takeWhile_append_dropWhile (p := fun a => decide (sep a ≤ k)) (l := l)
  have hhead : ∀ b ∈ (l.dropWhile fun a => decide (sep a ≤ k)).head?, ¬ sep b ≤ k := by
    intro b hb
    have hlen : 0 < (l.dropWhile fun a => decide (sep a ≤ k)).length := by
      cases hd : l.dropWhile fun a => decide (sep a ≤ k) with
      | nil => rw [hd] at hb; simp at hb
      | cons c r => simp
    have hnot := List.dropWhile_get_zero_not (fun a => decide (sep a ≤ k)) l hlen
    cases hd : l.dropWhile fun a => decide (sep a ≤ k) with
    | nil => rw [hd] at hb; simp at hb
    | cons c r =>
      simp only [hd, List.head?_cons, Option.mem_def, Option.some.injEq] at hb
      simp only [hd, List.get_eq_getElem, List.getElem_cons_zero, decide_eq_true_eq] at hnot
      rwa [← hb]
  rcases List.eq_nil_or_concat (l.takeWhile fun a => decide (sep a ≤ k)) with hT | ⟨A, a, hT⟩
  · left
    rw [hT, List.nil_append] at hsplit
    rw [hsplit] at hhead
    cases l with
    | nil => exact absurd rfl hl
    | cons a B =>
      have ha : ¬ sep a ≤ k := hhead a rfl
      exact ⟨a, B, rfl, ha, by simp [focus, route_nil_run ha]⟩
  · right
    rw [List.concat_eq_append] at hT
    have hrun : ∀ b ∈ A ++ [a], sep b ≤ k := by
      intro b hb
      rw [← hT] at hb
      simpa using List.mem_takeWhile_imp hb
    have hA : ∀ b ∈ A, sep b ≤ k := fun b hb => hrun b (by simp [hb])
    have ha : sep a ≤ k := hrun a (by simp)
    rw [hT, List.append_assoc, List.singleton_append] at hsplit
    refine ⟨A, a, _, hsplit.symm, hA, ha, hhead, ?_⟩
    have hr := route_run hA ha hhead
    rw [hsplit] at hr
    have hdrop : l.drop A.length = a :: l.dropWhile fun a => decide (sep a ≤ k) := by
      conv_lhs => rw [← hsplit]
      simp
    have htake : l.take A.length = A := by
      conv_lhs => rw [← hsplit]
      simp
    simp only [focus, hr, hdrop, htake]

theorem focus_eq_some (h : focus sep k l = some (A, a, B)) :
    l = A ++ a :: B ∧ A.length = route sep k l := by
  rw [focus] at h
  split at h
  · cases h
  · next c r hd =>
    simp only [Option.some.injEq, Prod.mk.injEq] at h
    obtain ⟨rfl, rfl, rfl⟩ := h
    have hlt : route sep k l < l.length := by
      by_contra hge
      rw [List.drop_eq_nil_of_le (by omega)] at hd
      cases hd
    refine ⟨?_, by simp; omega⟩
    rw [← hd, List.take_append_drop]

theorem focus_mem (h : focus sep k l = some (A, a, B)) : a ∈ l := by
  rw [(focus_eq_some h).1]
  simp

theorem focus_sides {P : α → Prop} (h : focus sep k l = some (A, a, B)) (hall : ∀ b ∈ l, P b) :
    ∀ b, b ∈ A ∨ b ∈ B → P b := by
  intro b hb
  apply hall b
  rw [(focus_eq_some h).1]
  rcases hb with hb | hb <;> simp [hb]

theorem focus_isSome (sep : α → κ) (k : κ) {l : List α} (hl : l ≠ []) : ∃ A a B, focus sep k l = some (A, a, B) := by
  rcases focus_cases sep k hl with ⟨a, B, -, -, h⟩ | ⟨A, a, B, -, -, -, -, h⟩
  · exact ⟨[], a, B, h⟩
  · exact ⟨A, a, B, h⟩

@[simp] theorem focus_nil : focus sep k ([] : List α) = none := rfl

/-- Unless the key is routed to the first member, the separator found does not exceed it. -/
theorem focus_le (h : focus sep k l = some (A, a, B)) (hA : A ≠ []) : sep a ≤ k := by
  have hl : l ≠ [] := by rintro rfl; simp at h
  rcases focus_cases sep k hl with ⟨b, C, -, -, hf⟩ | ⟨A', b, C, -, -, hb, -, hf⟩
  · rw [h] at hf
    simp only [Option.some.injEq, Prod.mk.injEq] at hf
    exact absurd hf.1 hA
  · rw [h] at hf
    simp only [Option.some.injEq, Prod.mk.injEq] at hf
    rw [hf.2.1]
    exact hb

/-- With the separators in order, the key is before every separator to the right. -/
theorem focus_gt (hs : l.Pairwise fun a b => sep a ≤ sep b) (h : focus sep k l = some (A, a, B)) :
    ∀ b ∈ B, k < sep b := by
  have hl : l ≠ [] := by rintro rfl; simp at h
  intro b hb
  rcases focus_cases sep k hl with ⟨c, C, rfl, hc, hf⟩ | ⟨A', c, C, rfl, -, -, hC, hf⟩
  · rw [h] at hf
    simp only [Option.some.injEq, Prod.mk.injEq] at hf
    obtain ⟨-, rfl, rfl⟩ := hf
    exact lt_of_lt_of_le (not_le.mp hc) ((List.pairwise_cons.mp hs).1 b hb)
  · rw [h] at hf
    simp only [Option.some.injEq, Prod.mk.injEq] at hf
    obtain ⟨rfl, rfl, rfl⟩ := hf
    cases B with
    | nil => simp at hb
    | cons d D =>
      have hd : k < sep d := not_le.mp (hC d rfl)
      rcases List.mem_cons.mp hb with rfl | hb
      · exact hd
      · have htl := (List.pairwise_append.mp hs).2.1
        have hdD := (List.pairwise_cons.mp (List.pairwise_cons.mp htl).2).1
        exact lt_of_lt_of_le hd (hdD b hb)

/-- The leading run ends in the member the key is routed to, unless it is empty. -/
theorem getLast?_run (h : focus sep k l = some (A, a, B)) :
    (l.takeWhile fun b => decide (sep b ≤ k)).getLast? = if sep a ≤ k then some a else none := by
  have hl : l ≠ [] := by rintro rfl; simp at h
  rcases focus_cases sep k hl with ⟨c, C, rfl, hc, hf⟩ | ⟨A', c, C, rfl, hA, hc, hC, hf⟩
  · rw [h] at hf
    simp only [Option.some.injEq, Prod.mk.injEq] at hf
    obtain ⟨-, rfl, -⟩ := hf
    rw [if_neg hc]
    simp [hc]
  · rw [h] at hf
    simp only [Option.some.injEq, Prod.mk.injEq] at hf
    obtain ⟨rfl, rfl, rfl⟩ := hf
    have hall : ∀ b ∈ A, decide (sep b ≤ k) = true := fun b hb => decide_eq_true (hA b hb)
    have htail : B.takeWhile (fun b => decide (sep b ≤ k)) = [] := by
      cases B with
      | nil => rfl
      | cons b B => simp [hC b rfl]
    rw [if_pos hc, List.takeWhile_append_of_pos hall, List.takeWhile_cons_of_pos (by simpa using hc),
      htail]
    simp

/-- Routing looks at the separators only. -/
theorem route_map (f : α → β) (sep' : β → κ) (hf : ∀ a, sep' (f a) = sep a) (k : κ) (l : List α) :
    route sep' k (l.map f) = route sep k l := by
  have hp : ((fun b => decide (sep' b ≤ k)) ∘ f) = fun a => decide (sep a ≤ k) := by
    funext a
    simp [hf]
  rw [route, route, List.takeWhile_map, List.length_map, hp]

theorem focus_map (f : α → β) (sep' : β → κ) (hf : ∀ a, sep' (f a) = sep a)
    (h : focus sep k l = some (A, a, B)) :
    focus sep' k (l.map f) = some (A.map f, f a, B.map f) := by
  obtain ⟨hl, hlen⟩ := focus_eq_some h
  have hr : route sep' k (l.map f) = A.length := by rw [route_map f sep' hf, hlen]
  rw [focus, hr, hl]
  simp

/-- The key is routed to whatever stands in the same place under the same separator. -/
theorem focus_replace (a' : α) (h : focus sep k l = some (A, a, B)) (hs : sep a' = sep a) :
    focus sep k (A ++ a' :: B) = some (A, a', B) := by
  obtain ⟨hl, hlen⟩ := focus_eq_some h
  have hmap : (A ++ a' :: B).map sep = l.map sep := by
    rw [hl]
    simp [hs]
  have hseps : ∀ l : List α, route id k (l.map sep) = route sep k l :=
    route_map sep id (fun _ => rfl) k
  have hr : route sep k (A ++ a' :: B) = A.length := by
    rw [hlen, ← hseps (A ++ a' :: B), hmap, hseps l]
  rw [focus, hr]
  simp

/-- Without the member it was routed to, the key goes to the next one on the left. -/
theorem focus_drop_left {b : α} (hA : ∀ c ∈ A, sep c ≤ k) (hb : sep b ≤ k)
    (hB : ∀ c ∈ B, k < sep c) : focus sep k (A ++ [b] ++ B) = some (A, b, B) := by
  have hr : route sep k (A ++ b :: B) = A.length := by
    apply route_run hA hb
    intro c hc
    exact not_le.mpr (hB c (List.mem_of_mem_head? hc))
  rw [List.append_assoc, List.singleton_append, focus, hr]
  simp

/-- With nothing on the left, it goes to the first one on the right. -/
theorem focus_drop_right {b : α} (hb : k < sep b) : focus sep k (b :: B) = some ([], b, B) := by
  rw [focus, route_nil_run (not_le.mpr hb)]
  simp

end focus

/-! ## 2. Trees and their contents -/

/-- A search tree of height `h` with separators in `κ` and items in `ι`. -/
def STree (κ ι : Type) : Nat → Type
  | 0 => List ι
  | h + 1 => List (κ × STree κ ι h)

namespace STree

variable {κ ι : Type}

/-- The items in order. -/
def items : (h : Nat) → STree κ ι h → List ι
  | 0, (l : List ι) => l
  | h + 1, (kids : List (κ × STree κ ι h)) => kids.flatMap fun p => items h p.2

/-- Every internal node has a child. -/
def Full : (h : Nat) → STree κ ι h → Prop
  | 0, _ => True
  | h + 1, (kids : List (κ × STree κ ι h)) => kids ≠ [] ∧ ∀ p ∈ kids, Full h p.2

section routing

variable [LinearOrder κ]

/-- The items of the leaf a key is routed to. -/
def leafAt (k : κ) : (h : Nat) → STree κ ι h → List ι
  | 0, (l : List ι) => l
  | h + 1, (kids : List (κ × STree κ ι h)) =>
    match focus Prod.fst k kids with
    | none => []
    | some (_, p, _) => leafAt k h p.2

/-- The items to the left of the routed leaf. -/
def before (k : κ) : (h : Nat) → STree κ ι h → List ι
  | 0, _ => []
  | h + 1, (kids : List (κ × STree κ ι h)) =>
    match focus Prod.fst k kids with
    | none => []
    | some (A, p, _) => (A.flatMap fun q => items h q.2) ++ before k h p.2

/-- The items to the right of the routed leaf. -/
def after (k : κ) : (h : Nat) → STree κ ι h → List ι
  | 0, _ => []
  | h + 1, (kids : List (κ × STree κ ι h)) =>
    match focus Prod.fst k kids with
    | none => []
    | some (_, p, B) => after k h p.2 ++ B.flatMap fun q => items h q.2

theorem items_eq (k : κ) : ∀ (h : Nat) (t : STree κ ι h), Full h t →
    items h t = before k h t ++ leafAt k h t ++ after k h t := by
  intro h
  induction h with
  | zero =>
    intro t _
    exact (List.append_nil (t : List ι)).symm
  | succ h ih =>
    intro (kids : List (κ × STree κ ι h)) hfull
    obtain ⟨hne, hkids⟩ := hfull
    obtain ⟨A, p, B, hf⟩ := focus_isSome Prod.fst k hne
    obtain ⟨hl, -⟩ := focus_eq_some hf
    have hp := ih p.2 (hkids p (focus_mem hf))
    simp only [items, before, leafAt, after, hf]
    rw [hl]
    simp only [List.flatMap_append, List.flatMap_cons, hp, List.append_assoc]

end routing

/-! ## 3. Edits -/

section edits

variable [LinearOrder κ]

/-- Replace the routed leaf by `new`.  A leaf left empty is dropped, and so is every node left
    without children: `none` is a subtree dropped as a whole. -/
def edit (k : κ) (new : List ι) : (h : Nat) → STree κ ι h → Option (STree κ ι h)
  | 0, _ => if new.isEmpty then none else some new
  | h + 1, (kids : List (κ × STree κ ι h)) =>
    match focus Prod.fst k kids with
    | none => some kids
    | some (A, p, B) =>
      match edit k new h p.2 with
      | some t => some (A ++ (p.1, t) :: B)
      | none => if (A ++ B).isEmpty then none else some (A ++ B)

/-- A tree of some height. -/
abbrev Any (κ ι : Type) := (h : Nat) × STree κ ι h

/-- `edit` at the root: a leaf at the root stays even when empty, and a root left with one child
    after a drop gives way to that child. -/
def mutate (k : κ) (new : List ι) : (h : Nat) → STree κ ι h → Any κ ι
  | 0, _ => ⟨0, new⟩
  | h + 1, (kids : List (κ × STree κ ι h)) =>
    match focus Prod.fst k kids with
    | none => ⟨h + 1, kids⟩
    | some (A, p, B) =>
      match edit k new h p.2 with
      | some t => ⟨h + 1, A ++ (p.1, t) :: B⟩
      | none =>
        match A ++ B with
        | [q] => ⟨h, q.2⟩
        | rest => ⟨h + 1, rest⟩

/-- After the edit the root is left with a single child, which takes its place. -/
def givesWay (k : κ) (new : List ι) : (h : Nat) → STree κ ι h → Bool
  | 0, _ => false
  | h + 1, (kids : List (κ × STree κ ι h)) =>
    match focus Prod.fst k kids with
    | none => false
    | some (A, p, B) => (edit k new h p.2).isNone && (A ++ B).length == 1

theorem leafAt_focus {k : κ} {h : Nat} {kids A B : List (κ × STree κ ι h)} {p : κ × STree κ ι h}
    (hf : focus Prod.fst k kids = some (A, p, B)) :
    leafAt k (h + 1) kids = leafAt k h p.2 := by
  simp only [leafAt, hf]

theorem givesWay_focus {k : κ} {h : Nat} {kids A B : List (κ × STree κ ι h)} {p : κ × STree κ ι h}
    (hf : focus Prod.fst k kids = some (A, p, B)) (new : List ι) :
    givesWay k new (h + 1) kids = ((edit k new h p.2).isNone && (A ++ B).length == 1) := by
  simp only [givesWay, hf]

/-- The separator a list of children begins with. -/
def headSep (d : κ) {α : Type} (l : List (κ × α)) : κ := (l.head?.map Prod.fst).getD d

/-- Replace the routed leaf by two leaves.  A node takes in a further child while it has fewer
    than `cap` of them and is cut in half otherwise; the second component is the part cut off,
    under its separator. -/
def cut (cap : Nat) (k : κ) (l r : List ι) (s : κ) :
    (h : Nat) → STree κ ι h → STree κ ι h × Option (κ × STree κ ι h)
  | 0, _ => (l, some (s, r))
  | h + 1, (kids : List (κ × STree κ ι h)) =>
    match focus Prod.fst k kids with
    | none => (kids, none)
    | some (A, p, B) =>
      match cut cap k l r s h p.2 with
      | (t, none) => (A ++ (p.1, t) :: B, none)
      | (t, some q) =>
        let all := A ++ (p.1, t) :: q :: B
        if kids.length < cap then (all, none)
        else
          let half := max 1 (all.length / 2)
          (all.take half, some (headSep s (all.drop half), all.drop half))

/-- The key a tree begins with: its first separator, or the key of its first item. -/
def firstSep (key : ι → κ) (d : κ) : (h : Nat) → STree κ ι h → κ
  | 0, (l : List ι) => (l.head?.map key).getD d
  | h + 1, (kids : List (κ × STree κ ι h)) => headSep d kids

/-- After a cut at the root, the two parts go under a new root. -/
def grow (key : ι → κ) (d : κ) (h : Nat) (c : STree κ ι h × Option (κ × STree κ ι h)) : Any κ ι :=
  match c.2 with
  | none => ⟨h, c.1⟩
  | some q => ⟨h + 1, [(firstSep key d h c.1, c.1), q]⟩

/-- The items of a tree and of the part cut off it. -/
def cutItems (h : Nat) (c : STree κ ι h × Option (κ × STree κ ι h)) : List ι :=
  items h c.1 ++ (c.2.elim [] fun q => items h q.2)

theorem edit_items (k : κ) (new : List ι) : ∀ (h : Nat) (t : STree κ ι h), Full h t →
    (edit k new h t = none → new = [] ∧ before k h t = [] ∧ after k h t = []) ∧
    (∀ t', edit k new h t = some t' → items h t' = before k h t ++ new ++ after k h t) := by
  intro h
  induction h with
  | zero =>
    intro t _
    simp only [edit]
    constructor
    · intro he
      split_ifs at he with hnew
      exact ⟨List.isEmpty_iff.mp hnew, rfl, rfl⟩
    · intro t' he
      split_ifs at he with hnew
      obtain rfl := Option.some.inj he
      exact (List.append_nil new).symm
  | succ h ih =>
    intro (kids : List (κ × STree κ ι h)) hfull
    obtain ⟨hne, hkids⟩ := hfull
    obtain ⟨A, p, B, hf⟩ := focus_isSome Prod.fst k hne
    obtain ⟨ihn, ihs⟩ := ih p.2 (hkids p (focus_mem hf))
    simp only [edit, before, after, hf]
    cases he : edit k new h p.2 with
    | some t =>
      have ht := ihs t he
      constructor
      · intro hc; cases hc
      · intro t' hs
        obtain rfl := Option.some.inj hs
        simp only [items, List.flatMap_append, List.flatMap_cons, ht, List.append_assoc]
    | none =>
      obtain ⟨hnew, hb, ha⟩ := ihn he
      simp only [hb, ha, hnew, List.append_nil, List.nil_append]
      constructor
      · intro hc
        split_ifs at hc with hAB
        rw [List.isEmpty_iff, List.append_eq_nil_iff] at hAB
        simp [hAB.1, hAB.2]
      · intro t' hs
        split_ifs at hs with hAB
        obtain rfl := Option.some.inj hs
        simp only [items, List.flatMap_append]

/-- The items of a tree of some height. -/
def Any.items (t : Any κ ι) : List ι := STree.items t.1 t.2

/-- What an edit of a tree with internal nodes comes to: an edit of the root, the child the root
    gave way to, or a root without children. -/
theorem mutate_cases (k : κ) (new : List ι) (h : Nat) (kids : List (κ × STree κ ι h)) :
    (∃ t', edit k new (h + 1) kids = some t' ∧ mutate k new (h + 1) kids = ⟨h + 1, t'⟩) ∨
    (∃ q ∈ kids, edit k new (h + 1) kids = some ([q] : List _) ∧
      mutate k new (h + 1) kids = ⟨h, q.2⟩) ∨
    (edit k new (h + 1) kids = none ∧ mutate k new (h + 1) kids = ⟨h + 1, ([] : List _)⟩) := by
  cases hf : focus Prod.fst k kids with
  | none => exact Or.inl ⟨kids, by simp only [edit, hf], by simp only [mutate, hf]⟩
  | some f =>
    obtain ⟨A, p, B⟩ := f
    cases he : edit k new h p.2 with
    | some t' =>
      exact Or.inl ⟨(A ++ (p.1, t') :: B : List _), by simp only [edit, hf, he],
        by simp only [mutate, hf, he]⟩
    | none =>
      match hAB : A ++ B with
      | [] =>
        right; right
        constructor
        · simp only [edit, hf, he, hAB, List.isEmpty_nil, ↓reduceIte]
        · simp only [mutate, hf, he, hAB]
      | [q] =>
        right; left
        refine ⟨q, ?_, ?_, by simp only [mutate, hf, he, hAB]⟩
        · have hq : q ∈ A ++ B := by rw [hAB]; simp
          exact focus_sides hf (fun _ hb => hb) q (List.mem_append.mp hq)
        · simp only [edit, hf, he, hAB, List.isEmpty_cons, Bool.false_eq_true, ↓reduceIte]
          rfl
      | q :: q' :: rest =>
        left
        refine ⟨(q :: q' :: rest : List _), ?_, by simp only [mutate, hf, he, hAB]⟩
        simp only [edit, hf, he, hAB, List.isEmpty_cons, Bool.false_eq_true, ↓reduceIte]

/-- **An edit replaces the routed leaf's items and nothing else.** -/
theorem mutate_items (k : κ) (new : List ι) (h : Nat) (t : STree κ ι h) (hfull : Full h t) :
    (mutate k new h t).items = before k h t ++ new ++ after k h t := by
  cases h with
  | zero => exact (List.append_nil new).symm
  | succ h =>
    obtain ⟨hnone, hsome⟩ := edit_items k new (h + 1) t hfull
    rcases mutate_cases k new h t with ⟨t', he, hm⟩ | ⟨q, -, he, hm⟩ | ⟨he, hm⟩
    · rw [hm]
      exact hsome t' he
    · rw [hm, ← hsome _ he]
      exact (List.append_nil _).symm
    · obtain ⟨hnew, hb, ha⟩ := hnone he
      rw [hm, hnew, hb, ha]
      rfl

theorem cut_items (cap : Nat) (k : κ) (l r : List ι) (s : κ) :
    ∀ (h : Nat) (t : STree κ ι h), Full h t →
      cutItems h (cut cap k l r s h t) = before k h t ++ (l ++ r) ++ after k h t := by
  intro h
  induction h with
  | zero =>
    intro t _
    exact (List.append_nil (l ++ r)).symm
  | succ h ih =>
    intro (kids : List (κ × STree κ ι h)) hfull
    obtain ⟨hne, hkids⟩ := hfull
    obtain ⟨A, p, B, hf⟩ := focus_isSome Prod.fst k hne
    have hrec := ih p.2 (hkids p (focus_mem hf))
    simp only [cut, before, after, hf]
    -- the child after the cut, and what was cut off it if anything
    rcases hc : cut cap k l r s h p.2 with ⟨t, q⟩
    rw [hc] at hrec
    cases q with
    | none =>
      simp only [cutItems, Option.elim_none, List.append_nil] at hrec
      simp only [cutItems, Option.elim_none, items, List.flatMap_append, List.flatMap_cons, hrec,
        List.append_nil, List.append_assoc]
    | some q =>
      simp only [cutItems, Option.elim_some] at hrec
      have hall : ((A ++ (p.1, t) :: q :: B).flatMap fun q => items h q.2) =
          (A.flatMap fun q => items h q.2) ++ (before k h p.2 ++ (l ++ r) ++ after k h p.2) ++
            B.flatMap fun q => items h q.2 := by
        simp only [List.flatMap_append, List.flatMap_cons, ← hrec, List.append_assoc]
      simp only []
      split_ifs with hcap
      · simp only [cutItems, Option.elim_none, items, List.append_nil]
        rw [hall]
        simp only [List.append_assoc]
      · simp only [cutItems, Option.elim_some, items]
        rw [← List.flatMap_append, List.take_append_drop, hall]
        simp only [List.append_assoc]

/-! ### How large an edit can make a tree -/

/-- The number of nodes. -/
def nodes : (h : Nat) → STree κ ι h → Nat
  | 0, _ => 1
  | h + 1, (kids : List (κ × STree κ ι h)) => 1 + (kids.map fun p => nodes h p.2).sum

def Any.nodes (t : Any κ ι) : Nat := STree.nodes t.1 t.2

omit [LinearOrder κ] in
theorem nodes_append {h : Nat} (A B : List (κ × STree κ ι h)) (p : κ × STree κ ι h) :
    nodes (h + 1) (A ++ p :: B : List _) = nodes (h + 1) (A ++ B : List _) + nodes h p.2 := by
  simp only [nodes, List.map_append, List.map_cons, List.sum_append, List.sum_cons]
  omega

theorem edit_nodes (k : κ) (new : List ι) : ∀ (h : Nat) (t t' : STree κ ι h),
    edit k new h t = some t' → nodes h t' ≤ nodes h t := by
  intro h
  induction h with
  | zero => intro t t' _; exact le_rfl
  | succ h ih =>
    intro (kids : List (κ × STree κ ι h)) t' he
    simp only [edit] at he
    split at he
    · obtain rfl := Option.some.inj he
      exact le_rfl
    · next A p B hf =>
      rw [(focus_eq_some hf).1, nodes_append]
      split at he
      · next t₁ ht₁ =>
        obtain rfl := Option.some.inj he
        rw [nodes_append]
        exact Nat.add_le_add_left (ih p.2 t₁ ht₁) _
      · split_ifs at he
        obtain rfl := Option.some.inj he
        exact Nat.le_add_right _ _

/-- An edit makes a tree neither higher nor larger. -/
theorem mutate_nodes (k : κ) (new : List ι) (h : Nat) (t : STree κ ι h) :
    (mutate k new h t).1 ≤ h ∧ (mutate k new h t).nodes ≤ nodes h t := by
  cases h with
  | zero => exact ⟨le_rfl, le_rfl⟩
  | succ h =>
    rcases mutate_cases k new h t with ⟨t', he, hm⟩ | ⟨q, -, he, hm⟩ | ⟨-, hm⟩ <;> rw [hm]
    · exact ⟨le_rfl, edit_nodes k new (h + 1) t t' he⟩
    · have hle := edit_nodes k new (h + 1) t _ he
      have hone : nodes (h + 1) ([q] : List _) = 1 + nodes h q.2 := rfl
      exact ⟨Nat.le_succ h, by change nodes h q.2 ≤ _; omega⟩
    · exact ⟨le_rfl, Nat.le_add_right 1 _⟩

/-- A cut adds at most one node on each level. -/
theorem cut_nodes (cap : Nat) (k : κ) (l r : List ι) (s : κ) : ∀ (h : Nat) (t : STree κ ι h),
    nodes h (cut cap k l r s h t).1 + ((cut cap k l r s h t).2.elim 0 fun q => nodes h q.2) ≤
      nodes h t + h + 1 := by
  intro h
  induction h with
  | zero => intro t; exact le_rfl
  | succ h ih =>
    intro (kids : List (κ × STree κ ι h))
    cases hf : focus Prod.fst k kids with
    | none =>
      simp only [cut, hf, Option.elim_none]
      omega
    | some f =>
      obtain ⟨A, p, B⟩ := f
      have hkids := nodes_append A B p
      rw [← (focus_eq_some hf).1] at hkids
      have hrec := ih p.2
      rcases hc : cut cap k l r s h p.2 with ⟨t, q⟩
      rw [hc] at hrec
      cases q with
      | none =>
        simp only [Option.elim_none] at hrec
        simp only [cut, hf, hc, Option.elim_none, nodes_append]
        omega
      | some q =>
        simp only [Option.elim_some] at hrec
        have hnew : nodes (h + 1) (A ++ (p.1, t) :: q :: B : List _) =
            nodes (h + 1) (A ++ B : List _) + nodes h q.2 + nodes h t := by
          rw [nodes_append, nodes_append]
        simp only [cut, hf, hc]
        split_ifs with hcap
        · simp only [Option.elim_none]
          omega
        · -- the two halves have the children of the whole, and one node more
          generalize A ++ (p.1, t) :: q :: B = K at hnew ⊢
          have hsplit : ((K.take (max 1 (K.length / 2))).map fun p => nodes h p.2).sum +
              ((K.drop (max 1 (K.length / 2))).map fun p => nodes h p.2).sum =
              (K.map fun p => nodes h p.2).sum := by
            rw [← List.sum_append, ← List.map_append, List.take_append_drop]
          simp only [nodes] at hnew hkids
          simp only [Option.elim_some, nodes]
          omega

omit [LinearOrder κ] in
theorem grow_nodes (key : ι → κ) (d : κ) (h : Nat) (c : STree κ ι h × Option (κ × STree κ ι h)) :
    (grow key d h c).1 ≤ h + 1 ∧
    (grow key d h c).nodes ≤ nodes h c.1 + (c.2.elim 0 fun q => nodes h q.2) + 1 := by
  obtain ⟨t, q⟩ := c
  cases q with
  | none => exact ⟨Nat.le_succ h, Nat.le_succ _⟩
  | some q =>
    refine ⟨le_rfl, ?_⟩
    simp only [grow, Any.nodes, nodes, List.map_cons, List.map_nil, List.sum_cons, List.sum_nil,
      Option.elim_some]
    omega

omit [LinearOrder κ] in
theorem grow_items (key : ι → κ) (d : κ) (h : Nat) (c : STree κ ι h × Option (κ × STree κ ι h)) :
    (grow key d h c).items = cutItems h c := by
  obtain ⟨t, q⟩ := c
  cases q with
  | none => simp [grow, cutItems, Any.items]
  | some q => simp [grow, cutItems, Any.items, items]

end edits

end STree

end Btrfs.Lib
