/-
  Btrfs/Lib/Span.lean
  ===================
  **Byte spans and lists of them** — the arithmetic of a free list.

  A `Span` is a half-open range `[start, start + size)`.  A list of spans stands
  for the set of bytes it covers (`bytesOf`), and it is *scattered* when no two of
  its members share a byte.  Three operations edit such a list: `carve` subtracts
  a span, `takeFront` hands out the first bytes of one member, and `coalesce`
  sorts the list and joins neighbours.  Each has one lemma that says what it does
  to the covered set and one that says it keeps the list scattered; a client never
  has to look at the list itself again.
-/
import Mathlib

namespace Btrfs.Lib

/-- The half-open range `[start, start + size)`. -/
structure Span where
  start : Nat
  size : Nat
  deriving DecidableEq, Repr

namespace Span

def stop (s : Span) : Nat := s.start + s.size

def bytes (s : Span) : Set Nat := Set.Ico s.start (s.start + s.size)

theorem mem_bytes {s : Span} {b : Nat} :
    b ∈ s.bytes ↔ s.start ≤ b ∧ b < s.start + s.size := Iff.rfl

theorem disjoint_of_le {s t : Span} (h : s.stop ≤ t.start ∨ t.stop ≤ s.start) :
    Disjoint s.bytes t.bytes := by
  rw [Set.disjoint_left]
  intro b hs ht
  simp only [stop, mem_bytes] at *
  omega

/-- Two non-empty spans share no byte exactly when one ends before the other begins. -/
theorem disjoint_bytes_iff {s t : Span} (hs : 0 < s.size) (ht : 0 < t.size) :
    Disjoint s.bytes t.bytes ↔ s.stop ≤ t.start ∨ t.stop ≤ s.start := by
  refine ⟨fun h => ?_, disjoint_of_le⟩
  -- the larger of the two starts would be a shared byte
  by_contra hc
  simp only [stop, not_or, not_le] at hc
  have hmax : max s.start t.start ∈ s.bytes ∧ max s.start t.start ∈ t.bytes := by
    simp only [mem_bytes]
    omega
  exact Set.disjoint_left.mp h hmax.1 hmax.2

/-- What is left of `e` once `s` is taken out: nothing, one piece or two. -/
def minus (s e : Span) : List Span :=
  if s.stop ≤ e.start ∨ e.stop ≤ s.start then [e]
  else
    (if e.start < s.start then [⟨e.start, s.start - e.start⟩] else []) ++
    (if s.stop < e.stop then [⟨s.stop, e.stop - s.stop⟩] else [])

/-- What is left of a span lies within it, and is not empty unless it was. -/
theorem mem_minus {s e x : Span} (h : x ∈ minus s e) :
    e.start ≤ x.start ∧ x.stop ≤ e.stop ∧ (0 < e.size → 0 < x.size) := by
  rw [minus] at h
  split at h
  · obtain rfl := List.mem_singleton.mp h
    exact ⟨le_rfl, le_rfl, id⟩
  next hmeet =>
    rcases List.mem_append.mp h with h | h
    · split at h
      · obtain rfl := List.mem_singleton.mp h
        simp only [stop] at *
        omega
      · cases h
    · split at h
      · obtain rfl := List.mem_singleton.mp h
        simp only [stop] at *
        omega
      · cases h

/-- What is left of `e` once its first `n` bytes are handed out. -/
def shrink (n : Nat) (e : Span) : List Span :=
  if e.size = n then [] else [⟨e.start + n, e.size - n⟩]

end Span

/-- The bytes a list of spans covers. -/
def bytesOf (l : List Span) : Set Nat := {b | ∃ s ∈ l, b ∈ s.bytes}

/-- No two members of the list share a byte. -/
def Scattered (l : List Span) : Prop := l.Pairwise fun s t => Disjoint s.bytes t.bytes

section bytes

theorem mem_bytesOf {l : List Span} {b : Nat} : b ∈ bytesOf l ↔ ∃ s ∈ l, b ∈ s.bytes := Iff.rfl

@[simp] theorem bytesOf_nil : bytesOf [] = ∅ := by
  ext b; simp [mem_bytesOf]

@[simp] theorem bytesOf_cons (s : Span) (l : List Span) :
    bytesOf (s :: l) = s.bytes ∪ bytesOf l := by
  ext b; simp [mem_bytesOf]

@[simp] theorem bytesOf_append (l m : List Span) : bytesOf (l ++ m) = bytesOf l ∪ bytesOf m := by
  ext b; simp [mem_bytesOf, or_and_right, exists_or]

theorem bytesOf_perm {l m : List Span} (h : l.Perm m) : bytesOf l = bytesOf m := by
  ext b; simp only [mem_bytesOf, h.mem_iff]

theorem bytes_subset_bytesOf {s : Span} {l : List Span} (h : s ∈ l) : s.bytes ⊆ bytesOf l :=
  fun _ hb => ⟨s, h, hb⟩

@[simp] theorem scattered_nil : Scattered [] := List.Pairwise.nil

theorem scattered_cons {s : Span} {l : List Span} :
    Scattered (s :: l) ↔ Disjoint s.bytes (bytesOf l) ∧ Scattered l := by
  simp only [Scattered, List.pairwise_cons]
  refine and_congr_left fun _ => ⟨fun h => ?_, fun h t ht => ?_⟩
  · rw [Set.disjoint_left]
    rintro b hb ⟨t, ht, hbt⟩
    exact Set.disjoint_left.mp (h t ht) hb hbt
  · exact h.mono_right (bytes_subset_bytesOf ht)

theorem scattered_append {l m : List Span} :
    Scattered (l ++ m) ↔ Scattered l ∧ Scattered m ∧ Disjoint (bytesOf l) (bytesOf m) := by
  induction l with
  | nil => simp
  | cons s l ih =>
    rw [List.cons_append, scattered_cons, scattered_cons, ih, bytesOf_append, bytesOf_cons,
      Set.disjoint_union_right, Set.disjoint_union_left]
    tauto

theorem Scattered.perm {l m : List Span} (h : Scattered l) (hp : l.Perm m) : Scattered m :=
  (hp.pairwise_iff fun hd => hd.symm).mp h

end bytes

/-! ### Subtracting a span -/

section carve

/-- Take `s` out of every member of the list. -/
def carve (s : Span) (l : List Span) : List Span := l.flatMap (Span.minus s)

theorem bytesOf_minus (s e : Span) (hs : 0 < s.size) :
    bytesOf (Span.minus s e) = e.bytes \ s.bytes := by
  ext b
  rw [Span.minus]
  split_ifs <;>
    simp only [bytesOf_append, bytesOf_cons, bytesOf_nil, Set.mem_union, Set.mem_sdiff,
      Span.mem_bytes, Set.mem_empty_iff_false, or_false, false_or, false_iff, Span.stop] at * <;>
    omega

theorem scattered_minus (s e : Span) : Scattered (Span.minus s e) := by
  rw [Span.minus]
  split_ifs with h1 h2 h3 h3
  · simp [Scattered]
  · -- the only case with two pieces: they lie on either side of `s`
    refine List.pairwise_pair.mpr (Span.disjoint_of_le (Or.inl ?_))
    simp only [Span.stop] at *
    omega
  all_goals simp [Scattered]

theorem bytesOf_carve {s : Span} (hs : 0 < s.size) (l : List Span) :
    bytesOf (carve s l) = bytesOf l \ s.bytes := by
  induction l with
  | nil => simp [carve]
  | cons e l ih =>
    have hstep : carve s (e :: l) = Span.minus s e ++ carve s l := by simp [carve]
    rw [hstep, bytesOf_append, bytesOf_minus s e hs, ih, bytesOf_cons, Set.union_sdiff_distrib]

theorem scattered_carve {s : Span} (hs : 0 < s.size) {l : List Span} (hl : Scattered l) :
    Scattered (carve s l) := by
  induction l with
  | nil => simp [carve]
  | cons e l ih =>
    rw [scattered_cons] at hl
    have hstep : carve s (e :: l) = Span.minus s e ++ carve s l := by simp [carve]
    rw [hstep, scattered_append, bytesOf_minus s e hs, bytesOf_carve hs]
    exact ⟨scattered_minus s e, ih hl.2, hl.1.mono Set.sdiff_subset Set.sdiff_subset⟩

end carve

/-! ### Handing out the front of a member -/

section takeFront

variable {n : Nat} {e : Span} {l m : List Span}

theorem bytesOf_shrink (hn : n ≤ e.size) :
    bytesOf (Span.shrink n e) = e.bytes \ (⟨e.start, n⟩ : Span).bytes := by
  ext b
  rw [Span.shrink]
  split_ifs <;>
    simp only [bytesOf_cons, bytesOf_nil, Set.mem_union, Set.mem_sdiff, Span.mem_bytes,
      Set.mem_empty_iff_false, or_false, false_iff] <;> omega

theorem front_subset (hn : n ≤ e.size) : (⟨e.start, n⟩ : Span).bytes ⊆ e.bytes := by
  intro b hb
  simp only [Span.mem_bytes] at *
  omega

/-- The covered set loses exactly the bytes handed out. -/
theorem bytesOf_takeFront (hs : Scattered (l ++ e :: m)) (hn : n ≤ e.size) :
    bytesOf (l ++ Span.shrink n e ++ m) =
      bytesOf (l ++ e :: m) \ (⟨e.start, n⟩ : Span).bytes := by
  obtain ⟨-, hem, hlm⟩ := scattered_append.mp hs
  obtain ⟨hem, -⟩ := scattered_cons.mp hem
  rw [bytesOf_cons, Set.disjoint_union_right] at hlm
  have hl : bytesOf l \ (⟨e.start, n⟩ : Span).bytes = bytesOf l :=
    (hlm.1.mono_right (front_subset hn)).sdiff_eq_left
  have hm : bytesOf m \ (⟨e.start, n⟩ : Span).bytes = bytesOf m :=
    (hem.symm.mono_right (front_subset hn)).sdiff_eq_left
  simp only [bytesOf_append, bytesOf_cons, bytesOf_shrink hn, Set.union_sdiff_distrib, hl, hm,
    Set.union_assoc]

theorem scattered_takeFront (hs : Scattered (l ++ e :: m)) (hn : n ≤ e.size) :
    Scattered (l ++ Span.shrink n e ++ m) := by
  obtain ⟨hl, hem, hlm⟩ := scattered_append.mp hs
  obtain ⟨hed, hm⟩ := scattered_cons.mp hem
  have hsub : bytesOf (Span.shrink n e) ⊆ e.bytes := by
    rw [bytesOf_shrink hn]; exact Set.sdiff_subset
  have hone : Scattered (Span.shrink n e) := by
    simp only [Span.shrink]; split_ifs <;> simp [Scattered]
  rw [bytesOf_cons, Set.disjoint_union_right] at hlm
  rw [List.append_assoc, scattered_append, scattered_append, bytesOf_append,
    Set.disjoint_union_right]
  exact ⟨hl, ⟨hone, hm, hed.mono_left hsub⟩, hlm.1.mono_right hsub, hlm.2⟩

theorem front_subset_bytesOf (hn : n ≤ e.size) :
    (⟨e.start, n⟩ : Span).bytes ⊆ bytesOf (l ++ e :: m) :=
  (front_subset hn).trans (bytes_subset_bytesOf (by simp))

/-- Hand out the first `n` bytes of the first member that is large enough. -/
def firstFit (n : Nat) : List Span → Option (Nat × List Span)
  | [] => none
  | e :: l =>
    if n ≤ e.size then some (e.start, Span.shrink n e ++ l)
    else (firstFit n l).map fun r => (r.1, e :: r.2)

theorem firstFit_eq_some {p : Nat} {l' : List Span} (h : firstFit n l = some (p, l')) :
    ∃ l₁ e l₂, l = l₁ ++ e :: l₂ ∧ n ≤ e.size ∧ p = e.start ∧
      l' = l₁ ++ Span.shrink n e ++ l₂ := by
  induction l generalizing p l' with
  | nil => simp [firstFit] at h
  | cons e l ih =>
    rw [firstFit] at h
    split_ifs at h with hn
    · simp only [Option.some.injEq, Prod.mk.injEq] at h
      exact ⟨[], e, l, rfl, hn, h.1.symm, h.2.symm⟩
    · obtain ⟨⟨q, m⟩, hq, hr⟩ := Option.map_eq_some_iff.mp h
      simp only [Prod.mk.injEq] at hr
      obtain ⟨rfl, rfl⟩ := hr
      obtain ⟨l₁, e', l₂, rfl, hn', rfl, rfl⟩ := ih hq
      exact ⟨e :: l₁, e', l₂, rfl, hn', rfl, rfl⟩

theorem firstFit_eq_none : firstFit n l = none ↔ ∀ e ∈ l, e.size < n := by
  induction l with
  | nil => simp [firstFit]
  | cons e l ih =>
    rw [firstFit]
    split_ifs with hn
    · simp only [List.mem_cons, forall_eq_or_imp, false_iff]
      omega
    · simp only [Option.map_eq_none_iff, ih, List.mem_cons, forall_eq_or_imp]
      exact ⟨fun h => ⟨by omega, h⟩, fun h => h.2⟩

end takeFront

/-! ### Sorting and joining neighbours -/

section coalesce

/-- Join each span to the one after it when they touch. -/
def joinTouching : Span → List Span → List Span
  | last, [] => [last]
  | last, e :: l =>
    if last.stop = e.start then joinTouching ⟨last.start, last.size + e.size⟩ l
    else last :: joinTouching e l

/-- Sort by start, then join the members that touch. -/
def coalesce (l : List Span) : List Span :=
  match l.insertionSort (fun s t => s.start ≤ t.start) with
  | [] => []
  | e :: m => joinTouching e m

theorem bytesOf_join {s t : Span} (h : s.stop = t.start) :
    (⟨s.start, s.size + t.size⟩ : Span).bytes = s.bytes ∪ t.bytes := by
  ext b
  simp only [Span.stop, Set.mem_union, Span.mem_bytes] at *
  omega

theorem bytesOf_joinTouching (last : Span) (l : List Span) :
    bytesOf (joinTouching last l) = last.bytes ∪ bytesOf l := by
  induction l generalizing last with
  | nil => simp [joinTouching]
  | cons e l ih =>
    simp only [joinTouching]
    split_ifs with h
    · rw [ih, bytesOf_join h, bytesOf_cons, Set.union_assoc]
    · rw [bytesOf_cons, ih, bytesOf_cons]

theorem scattered_joinTouching {last : Span} {l : List Span} (h : Scattered (last :: l)) :
    Scattered (joinTouching last l) := by
  induction l generalizing last with
  | nil => simpa [joinTouching] using h
  | cons e l ih =>
    simp only [joinTouching]
    obtain ⟨hd, htl⟩ := scattered_cons.mp h
    obtain ⟨hel, hl⟩ := scattered_cons.mp htl
    rw [bytesOf_cons, Set.disjoint_union_right] at hd
    split_ifs with hj
    · refine ih (scattered_cons.mpr ⟨?_, hl⟩)
      rw [bytesOf_join hj, Set.disjoint_union_left]
      exact ⟨hd.2, hel⟩
    · rw [scattered_cons, bytesOf_joinTouching, Set.disjoint_union_right]
      exact ⟨hd, ih htl⟩

theorem bytesOf_coalesce (l : List Span) : bytesOf (coalesce l) = bytesOf l := by
  have hp := List.perm_insertionSort (fun s t : Span => s.start ≤ t.start) l
  rw [← bytesOf_perm hp, coalesce]
  cases List.insertionSort (fun s t : Span => s.start ≤ t.start) l with
  | nil => rfl
  | cons e m => simpa using bytesOf_joinTouching e m

theorem scattered_coalesce {l : List Span} (h : Scattered l) : Scattered (coalesce l) := by
  have hp := List.perm_insertionSort (fun s t : Span => s.start ≤ t.start) l
  have hs := h.perm hp.symm
  rw [coalesce]
  cases hm : List.insertionSort (fun s t : Span => s.start ≤ t.start) l with
  | nil => exact scattered_nil
  | cons e m => exact scattered_joinTouching (hm ▸ hs)

end coalesce

/-! ### The one list for a set of bytes -/

section tidy

/-- Sorted, no member empty, a gap between any two. -/
structure Tidy (l : List Span) : Prop where
  apart : l.Pairwise fun s t => s.stop < t.start
  pos : ∀ s ∈ l, 0 < s.size

theorem Tidy.scattered {l : List Span} (h : Tidy l) : Scattered l :=
  h.apart.imp fun hlt => Span.disjoint_of_le (Or.inl hlt.le)

theorem tidy_cons {s : Span} {l : List Span} :
    Tidy (s :: l) ↔ (∀ t ∈ l, s.stop < t.start) ∧ 0 < s.size ∧ Tidy l := by
  constructor
  · rintro ⟨hapart, hpos⟩
    obtain ⟨hs, hl⟩ := List.pairwise_cons.mp hapart
    exact ⟨hs, hpos s List.mem_cons_self, hl, fun t ht => hpos t (List.mem_cons_of_mem _ ht)⟩
  · rintro ⟨hs, hpos, hl⟩
    exact ⟨List.pairwise_cons.mpr ⟨hs, hl.apart⟩, List.forall_mem_cons.mpr ⟨hpos, hl.pos⟩⟩

/-- The first member of a tidy list: its first byte is the least one covered, and the byte after its
    last is not covered. -/
theorem Tidy.head_edges {s : Span} {l : List Span} (h : Tidy (s :: l)) :
    s.start ∈ bytesOf (s :: l) ∧ (∀ b ∈ bytesOf (s :: l), s.start ≤ b) ∧
      s.stop ∉ bytesOf (s :: l) := by
  obtain ⟨hs, hpos, -⟩ := tidy_cons.mp h
  refine ⟨⟨s, List.mem_cons_self, le_refl _, by omega⟩, ?_, ?_⟩
  · rintro b ⟨t, ht, hbt⟩
    rcases List.mem_cons.mp ht with rfl | ht
    · exact hbt.1
    · have := hs t ht
      have := hbt.1
      simp only [Span.stop] at *
      omega
  · rintro ⟨t, ht, hbt⟩
    rcases List.mem_cons.mp ht with rfl | ht
    · exact absurd hbt.2 (lt_irrefl _)
    · exact absurd hbt.1 (not_le.mpr (hs t ht))

/-- Two tidy lists that cover the same bytes begin with the same span. -/
theorem Tidy.head_eq {s t : Span} {l m : List Span} (hl : Tidy (s :: l)) (hm : Tidy (t :: m))
    (h : bytesOf (s :: l) = bytesOf (t :: m)) : s = t := by
  obtain ⟨hs, hsmin, hsend⟩ := hl.head_edges
  obtain ⟨ht, htmin, htend⟩ := hm.head_edges
  have hstart : s.start = t.start := le_antisymm (hsmin _ (h ▸ ht)) (htmin _ (h ▸ hs))
  have hstop : s.stop = t.stop := by
    by_contra hne
    simp only [Span.stop] at hne
    -- the shorter one ends inside the longer one
    rcases Nat.lt_or_gt_of_ne hne with hlt | hlt
    · refine hsend (h ▸ ⟨t, List.mem_cons_self, ?_⟩)
      exact ⟨by simp only [Span.stop]; omega, hlt⟩
    · refine htend (h ▸ ⟨s, List.mem_cons_self, ?_⟩)
      exact ⟨by simp only [Span.stop]; omega, hlt⟩
  cases s
  cases t
  simp only [Span.stop] at hstart hstop
  simp only [Span.mk.injEq]
  omega

theorem Tidy.eq_of_bytesOf : ∀ {l m : List Span}, Tidy l → Tidy m → bytesOf l = bytesOf m → l = m := by
  intro l
  induction l with
  | nil =>
    intro m _ hm h
    cases m with
    | nil => rfl
    | cons t m => exact absurd (h ▸ hm.head_edges.1) (by simp)
  | cons s l ih =>
    intro m hl hm h
    cases m with
    | nil => exact absurd (h ▸ hl.head_edges.1) (by simp)
    | cons t m =>
      obtain rfl := hl.head_eq hm h
      have hrest : bytesOf l = bytesOf m := by
        have hdl := (scattered_cons.mp hl.scattered).1
        have hdm := (scattered_cons.mp hm.scattered).1
        rw [bytesOf_cons, bytesOf_cons] at h
        rw [← hdl.sup_sdiff_cancel_left, ← hdm.sup_sdiff_cancel_left]
        exact congrArg (· \ s.bytes) h
      rw [ih (tidy_cons.mp hl).2.2 (tidy_cons.mp hm).2.2 hrest]

/-- Joining neighbours in a sorted list leaves a gap everywhere. -/
theorem tidy_joinTouching : ∀ (l : List Span) (last : Span),
    (last :: l).Pairwise (fun s t => s.stop ≤ t.start) → (∀ s ∈ last :: l, 0 < s.size) →
      Tidy (joinTouching last l) ∧ ∀ s ∈ joinTouching last l, last.start ≤ s.start := by
  intro l
  induction l with
  | nil =>
    intro last _ hpos
    simp only [joinTouching, List.mem_singleton, forall_eq, le_refl, and_true]
    exact ⟨List.pairwise_singleton _ _, by simpa using hpos⟩
  | cons e l ih =>
    intro last hsort hpos
    obtain ⟨hlast, htail⟩ := List.pairwise_cons.mp hsort
    obtain ⟨he, hl⟩ := List.pairwise_cons.mp htail
    have hposl : 0 < last.size := hpos last List.mem_cons_self
    have hpose : 0 < e.size := hpos e (by simp)
    have hle : last.stop ≤ e.start := hlast e List.mem_cons_self
    rw [joinTouching]
    split_ifs with hj
    · refine ih ⟨last.start, last.size + e.size⟩ (List.pairwise_cons.mpr ⟨?_, hl⟩) ?_
      · intro t ht
        have := he t ht
        simp only [Span.stop] at *
        omega
      · intro s hs
        rcases List.mem_cons.mp hs with rfl | hs
        · simp only
          omega
        · exact hpos s (by simp [hs])
    · obtain ⟨htidy, hmin⟩ := ih e htail fun s hs => hpos s (List.mem_cons_of_mem _ hs)
      refine ⟨tidy_cons.mpr ⟨?_, hposl, htidy⟩, ?_⟩
      · intro t ht
        have := hmin t ht
        omega
      · intro s hs
        rcases List.mem_cons.mp hs with rfl | hs
        · exact le_refl _
        · have := hmin s hs
          simp only [Span.stop] at *
          omega

/-- Disjoint non-empty spans come out tidy. -/
theorem tidy_coalesce {l : List Span} (h : Scattered l) (hpos : ∀ s ∈ l, 0 < s.size) :
    Tidy (coalesce l) := by
  have hp := List.perm_insertionSort (fun s t : Span => s.start ≤ t.start) l
  have hsorted : (l.insertionSort fun s t => s.start ≤ t.start).Pairwise
      fun s t => s.start ≤ t.start := by
    have : Std.Total fun s t : Span => s.start ≤ t.start := ⟨fun s t => le_total s.start t.start⟩
    have : IsTrans Span fun s t => s.start ≤ t.start := ⟨fun _ _ _ => le_trans⟩
    exact List.pairwise_insertionSort _ l
  have hpos' : ∀ s ∈ l.insertionSort fun s t => s.start ≤ t.start, 0 < s.size :=
    fun s hs => hpos s (hp.mem_iff.mp hs)
  -- disjoint and in order of their starts: each ends before the next begins
  have hends : (l.insertionSort fun s t => s.start ≤ t.start).Pairwise
      fun s t => s.stop ≤ t.start := by
    refine (hsorted.and (h.perm hp.symm)).imp_of_mem fun {s t} hs ht hst => ?_
    have hs := hpos' s hs
    have ht := hpos' t ht
    rcases (Span.disjoint_bytes_iff hs ht).mp hst.2 with hle | hle
    · exact hle
    · have := hst.1
      simp only [Span.stop] at *
      omega
  rw [coalesce]
  cases hm : l.insertionSort fun s t => s.start ≤ t.start with
  | nil => exact ⟨List.Pairwise.nil, nofun⟩
  | cons e m =>
    rw [hm] at hends hpos'
    exact (tidy_joinTouching m e hends hpos').1

theorem shrink_pos {n : Nat} {e : Span} (hn : n ≤ e.size) : ∀ s ∈ Span.shrink n e, 0 < s.size := by
  intro s hs
  rw [Span.shrink] at hs
  split_ifs at hs with h
  · cases hs
  · obtain rfl := List.mem_singleton.mp hs
    simp only
    omega

end tidy

/-! ### Room for blocks of one size -/

section size

theorem Span.finite_bytes (s : Span) : s.bytes.Finite := Set.finite_Ico _ _

theorem Span.ncard_bytes (s : Span) : s.bytes.ncard = s.size := by
  rw [Span.bytes, ← Finset.coe_Ico, Set.ncard_coe_finset, Nat.card_Ico, Nat.add_sub_cancel_left]

theorem finite_bytesOf (l : List Span) : (bytesOf l).Finite := by
  induction l with
  | nil => simp
  | cons s l ih => rw [bytesOf_cons]; exact s.finite_bytes.union ih

theorem Scattered.ncard_bytesOf {l : List Span} (h : Scattered l) :
    (bytesOf l).ncard = (l.map Span.size).sum := by
  induction l with
  | nil => simp
  | cons s l ih =>
    obtain ⟨hs, hl⟩ := scattered_cons.mp h
    rw [bytesOf_cons, Set.ncard_union_eq hs s.finite_bytes (finite_bytesOf l), s.ncard_bytes, ih hl,
      List.map_cons, List.sum_cons]

/-- Ranges that share no byte and lie in an interval are no longer than it together. -/
theorem Scattered.sum_size_le {l : List Span} {lo hi : Nat} (h : Scattered l)
    (hl : ∀ s ∈ l, lo ≤ s.start ∧ s.stop ≤ hi) : (l.map Span.size).sum ≤ hi - lo := by
  have hsub : bytesOf l ⊆ (⟨lo, hi - lo⟩ : Span).bytes := by
    rintro b ⟨s, hs, hb⟩
    obtain ⟨hlo, hhi⟩ := hl s hs
    rw [Span.mem_bytes] at hb ⊢
    simp only [Span.stop] at hhi
    dsimp only
    omega
  have hcard := Set.ncard_le_ncard hsub (Span.finite_bytes _)
  rwa [h.ncard_bytesOf, Span.ncard_bytes] at hcard

end size

section blocks

variable {n : Nat}

/-- How many blocks of `n` bytes the members of a list hold, each on its own. -/
def blocksOf (n : Nat) (l : List Span) : Nat := (l.map fun s => s.size / n).sum

theorem exists_of_blocksOf_pos {l : List Span} (h : 0 < blocksOf n l) : ∃ e ∈ l, n ≤ e.size := by
  induction l with
  | nil => simp [blocksOf] at h
  | cons d l ih =>
    by_cases hd : n ≤ d.size
    · exact ⟨d, by simp, hd⟩
    · have hzero : d.size / n = 0 := Nat.div_eq_of_lt (not_le.mp hd)
      have hrest : 0 < blocksOf n l := by
        simpa [blocksOf, hzero] using h
      obtain ⟨e, he, hn⟩ := ih hrest
      exact ⟨e, by simp [he], hn⟩

/-- Handing out one block from the front of a member takes one block away. -/
theorem blocksOf_takeFront {l m : List Span} {e : Span} (hn : 0 < n) (he : n ≤ e.size) :
    blocksOf n (l ++ Span.shrink n e ++ m) + 1 = blocksOf n (l ++ e :: m) := by
  have hone : ((Span.shrink n e).map fun s => s.size / n).sum + 1 = e.size / n := by
    have hdiv : e.size / n = (e.size - n) / n + 1 := by
      rw [← Nat.add_div_right _ hn, Nat.sub_add_cancel he]
    rw [Span.shrink, hdiv]
    split_ifs with h
    · simp [h]
    · simp
  simp only [blocksOf, List.map_append, List.map_cons, List.sum_append, List.sum_cons]
  omega

/-- Handing out `k` bytes breaks at most one block beside those it takes, and none if it takes all of
    a member. -/
theorem blocksOf_shrink {l m : List Span} {e : Span} {k : Nat} (hk : k ≤ e.size) :
    blocksOf n (l ++ e :: m) ≤
      blocksOf n (l ++ Span.shrink k e ++ m) + (k / n + if k = e.size then 0 else 1) := by
  have hone : e.size / n ≤
      ((Span.shrink k e).map fun s => s.size / n).sum + (k / n + if k = e.size then 0 else 1) := by
    rw [Span.shrink]
    by_cases hall : k = e.size
    · rw [if_pos hall, if_pos hall.symm, hall]
      simp
    · rw [if_neg hall, if_neg (Ne.symm hall)]
      have hadd : (k + (e.size - k)) / n ≤ k / n + (e.size - k) / n + 1 :=
        Nat.add_div_le_div_add_div_add_one k (e.size - k) n
      rw [Nat.add_sub_cancel' hk] at hadd
      simp only [List.map_cons, List.map_nil, List.sum_cons, List.sum_nil, Nat.add_zero]
      omega
  simp only [blocksOf, List.map_append, List.map_cons, List.sum_append, List.sum_cons]
  omega

theorem blocksOf_joinTouching (last : Span) (l : List Span) :
    last.size / n + blocksOf n l ≤ blocksOf n (joinTouching last l) := by
  induction l generalizing last with
  | nil => simp [blocksOf, joinTouching]
  | cons e l ih =>
    have hcons : blocksOf n (e :: l) = e.size / n + blocksOf n l := by simp [blocksOf]
    rw [joinTouching, hcons]
    split_ifs with hj
    · have hrec := ih ⟨last.start, last.size + e.size⟩
      have hadd : last.size / n + e.size / n ≤ (last.size + e.size) / n :=
        Nat.div_add_div_le_add_div
      simp only at hrec
      omega
    · have hrec := ih e
      have hlast : blocksOf n (last :: joinTouching e l) =
          last.size / n + blocksOf n (joinTouching e l) := by simp [blocksOf]
      omega

/-- Joining neighbours loses no block. -/
theorem blocksOf_coalesce (l : List Span) : blocksOf n l ≤ blocksOf n (coalesce l) := by
  have hp := List.perm_insertionSort (fun s t : Span => s.start ≤ t.start) l
  have hsum : blocksOf n (l.insertionSort fun s t => s.start ≤ t.start) = blocksOf n l :=
    (hp.map _).sum_nat
  rw [coalesce, ← hsum]
  cases l.insertionSort (fun s t : Span => s.start ≤ t.start) with
  | nil => exact le_rfl
  | cons e m =>
    have hcons : blocksOf n (e :: m) = e.size / n + blocksOf n m := by simp [blocksOf]
    rw [hcons]
    exact blocksOf_joinTouching e m

end blocks

/-! ### Covered ranges -/

section covered

/-- Walk the list with a cursor: is every byte from the cursor to `stop` covered? -/
def coveredFrom (stop : Nat) : Nat → List Span → Bool
  | _, [] => false
  | cursor, e :: l =>
    if e.stop ≤ cursor then coveredFrom stop cursor l
    else if cursor < e.start then false
    else if stop ≤ e.stop then true
    else coveredFrom stop e.stop l

/-- What the walk accepts is covered, in whatever order the list is. -/
theorem subset_of_coveredFrom {stop : Nat} {l : List Span} :
    ∀ {cursor : Nat}, coveredFrom stop cursor l = true → Set.Ico cursor stop ⊆ bytesOf l := by
  induction l with
  | nil => simp [coveredFrom]
  | cons e l ih =>
    intro cursor h p hp
    rw [Set.mem_Ico] at hp
    rw [coveredFrom] at h
    rw [bytesOf_cons]
    split_ifs at h with hbehind hgap hlast
    · exact Or.inr (ih h (Set.mem_Ico.mpr hp))
    · left
      rw [Span.mem_bytes]
      simp only [Span.stop] at *
      omega
    · by_cases hin : p < e.stop
      · left
        rw [Span.mem_bytes]
        simp only [Span.stop] at *
        omega
      · exact Or.inr (ih h (Set.mem_Ico.mpr ⟨not_lt.mp hin, hp.2⟩))

/-- On a sorted list the walk accepts exactly the ranges that are covered. -/
theorem coveredFrom_iff {stop : Nat} {l : List Span} (hl : l.Pairwise fun s t => s.start ≤ t.start) :
    ∀ {cursor : Nat}, cursor < stop →
      (coveredFrom stop cursor l = true ↔ Set.Ico cursor stop ⊆ bytesOf l) := by
  induction l with
  | nil =>
    intro cursor hlt
    refine ⟨fun h => by simp [coveredFrom] at h, fun h => ?_⟩
    have := h (Set.left_mem_Ico.mpr hlt)
    simp at this
  | cons e l ih =>
    obtain ⟨hfirst, hl⟩ := List.pairwise_cons.mp hl
    intro cursor hlt
    refine ⟨subset_of_coveredFrom, fun h => ?_⟩
    have hcase : ∀ p ∈ Set.Ico cursor stop, p ∈ e.bytes ∨ p ∈ bytesOf l := by
      intro p hp
      have hmem := h hp
      rwa [bytesOf_cons] at hmem
    have hrest : ∀ {c : Nat}, cursor ≤ c → e.stop ≤ c → Set.Ico c stop ⊆ bytesOf l := by
      intro c hc hstop p hp
      rw [Set.mem_Ico] at hp
      refine (hcase p (Set.mem_Ico.mpr ⟨hc.trans hp.1, hp.2⟩)).resolve_left fun he => ?_
      rw [Span.mem_bytes] at he
      simp only [Span.stop] at *
      omega
    rw [coveredFrom]
    split_ifs with hbehind hgap hlast
    · exact (ih hl hlt).mpr (hrest le_rfl hbehind)
    · -- the byte at the cursor lies before every member that is left
      exfalso
      rcases hcase cursor (Set.left_mem_Ico.mpr hlt) with he | ⟨t, ht, hmem⟩
      · rw [Span.mem_bytes] at he
        omega
      · have := hfirst t ht
        rw [Span.mem_bytes] at hmem
        omega
    · rfl
    · exact (ih hl (by omega)).mpr (hrest (by omega) le_rfl)

end covered

/-! ### Members of a list whose spans are apart -/

/-- Only one member satisfies the test, so the search finds it. -/
theorem find?_eq_of_pairwise {α : Type*} {q : α → Bool} {l : List α} {a : α}
    (hl : l.Pairwise fun x y => ¬ (q x = true ∧ q y = true)) (ha : a ∈ l) (hq : q a = true) :
    l.find? q = some a := by
  induction l with
  | nil => cases ha
  | cons x l ih =>
    obtain ⟨hx, hl⟩ := List.pairwise_cons.mp hl
    rcases List.mem_cons.mp ha with rfl | hmem
    · exact List.find?_cons_of_pos hq
    · have hxq : ¬ q x = true := fun h => hx a hmem ⟨h, hq⟩
      rw [List.find?_cons_of_neg hxq]
      exact ih hl hmem

end Btrfs.Lib
