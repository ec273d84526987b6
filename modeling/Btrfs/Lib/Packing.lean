/-
  Btrfs/Lib/Packing.lean
  ======================
  **Packing a list into blocks, and the index levels above them.**

  `pack` fills bins of one capacity with the members of a list, in order: a member
  that does not fit opens a new bin, and a bin always takes at least one member.
  The number of bins is a fold over the sizes alone, and the fold is monotone in
  both directions a client needs: from a fuller state, and along a longer list.
  So packing a list never takes fewer bins than packing a part of it.

  Above `c` blocks an index of fan-out `k` has `⌈c / k⌉` nodes, above those as many
  as they need, up to a single root: `levelSizes`.  The blocks and the index nodes
  together are strictly increasing in `c`, so their total determines `c`.  `shareOut`
  hands the blocks of one level out to its index nodes, as evenly as it goes.
-/
import Mathlib

namespace Btrfs.Lib

variable {α : Type*}

/-! ### Filling bins in order -/

section pack

variable (cap : Nat) (size : α → Nat)

/-- Go on filling `bin`, of which `used` is taken. -/
def packInto : List α → Nat → List α → List (List α)
  | bin, _, [] => [bin]
  | bin, used, a :: l =>
    if cap < used + size a then bin :: packInto [a] (size a) l
    else packInto (bin ++ [a]) (used + size a) l

def pack : List α → List (List α)
  | [] => []
  | a :: l => packInto cap size [a] (size a) l

variable {cap size}

theorem flatten_packInto : ∀ (l bin : List α) (used : Nat),
    (packInto cap size bin used l).flatten = bin ++ l := by
  intro l
  induction l with
  | nil => intro bin used; simp [packInto]
  | cons a l ih =>
    intro bin used
    rw [packInto]
    split_ifs
    · rw [List.flatten_cons, ih, List.singleton_append]
    · rw [ih, List.append_assoc, List.singleton_append]

/-- Nothing is lost or reordered. -/
theorem flatten_pack (l : List α) : (pack cap size l).flatten = l := by
  cases l with
  | nil => rfl
  | cons a l => exact flatten_packInto l [a] (size a)

theorem packInto_ne_nil : ∀ (l bin : List α) (used : Nat), bin ≠ [] →
    ∀ b ∈ packInto cap size bin used l, b ≠ [] := by
  intro l
  induction l with
  | nil =>
    intro bin used hne b hb
    obtain rfl := List.mem_singleton.mp hb
    exact hne
  | cons a l ih =>
    intro bin used hne b hb
    rw [packInto] at hb
    split_ifs at hb
    · rcases List.mem_cons.mp hb with rfl | hb
      · exact hne
      · exact ih [a] (size a) (by simp) b hb
    · exact ih (bin ++ [a]) _ (by simp) b hb

/-- A bin takes at least one member. -/
theorem pack_ne_nil {l : List α} : ∀ b ∈ pack cap size l, b ≠ [] := by
  cases l with
  | nil => nofun
  | cons a l => exact packInto_ne_nil l [a] (size a) (by simp)

/-- The bins opened so far and what is used of the last one, after one more member. -/
def binStep (cap : Nat) (s : Nat × Nat) (x : Nat) : Nat × Nat :=
  if cap < s.2 + x then (s.1 + 1, x) else (s.1, s.2 + x)

theorem length_packInto : ∀ (l bin : List α) (used n : Nat),
    n + (packInto cap size bin used l).length =
      ((l.map size).foldl (binStep cap) (n + 1, used)).1 := by
  intro l
  induction l with
  | nil => intro bin used n; rfl
  | cons a l ih =>
    intro bin used n
    rw [packInto, List.map_cons, List.foldl_cons, binStep]
    split_ifs with hfull
    · rw [List.length_cons, ← ih [a] (size a) (n + 1)]
      omega
    · exact ih (bin ++ [a]) (used + size a) n

/-- The number of bins, from the sizes alone: no bin is open at first, which is a full one. -/
theorem length_pack (l : List α) :
    (pack cap size l).length = ((l.map size).foldl (binStep cap) (0, cap + 1)).1 := by
  cases l with
  | nil => rfl
  | cons a l =>
    have hfirst : binStep cap (0, cap + 1) (size a) = (0 + 1, size a) := by
      rw [binStep, if_pos (by omega)]
    rw [List.map_cons, List.foldl_cons, hfirst, ← length_packInto l [a] (size a) 0, Nat.zero_add]
    rfl

/-- Fewer bins, or as many with no more used of the last. -/
def Emptier (s t : Nat × Nat) : Prop := s.1 < t.1 ∨ s.1 = t.1 ∧ s.2 ≤ t.2

theorem Emptier.binStep {s t : Nat × Nat} (h : Emptier s t) (x : Nat) :
    Emptier (binStep cap s x) (binStep cap t x) := by
  unfold Emptier Lib.binStep at *
  split_ifs <;> simp only <;> omega

theorem emptier_binStep (cap : Nat) (s : Nat × Nat) (x : Nat) : Emptier s (binStep cap s x) := by
  rw [binStep]
  split_ifs
  · exact Or.inl (Nat.lt_succ_self _)
  · exact Or.inr ⟨rfl, Nat.le_add_right _ _⟩

theorem Emptier.foldl {l m : List Nat} {s t : Nat × Nat} (h : Emptier s t) (hlm : l.Sublist m) :
    Emptier (l.foldl (Lib.binStep cap) s) (m.foldl (Lib.binStep cap) t) := by
  induction hlm generalizing s t with
  | slnil => exact h
  | cons x _ ih =>
    refine ih ?_
    have := emptier_binStep cap t x
    unfold Emptier at *
    omega
  | cons_cons x _ ih => exact ih (h.binStep x)

/-- A list takes at least as many bins as a part of it, whatever the members are: only their sizes
    count. -/
theorem length_pack_le {β : Type*} {size' : β → Nat} {l : List α} {m : List β}
    (h : (l.map size).Sublist (m.map size')) :
    (pack cap size l).length ≤ (pack cap size' m).length := by
  rw [length_pack, length_pack]
  have hstart : Emptier (0, cap + 1) (0, cap + 1) := Or.inr ⟨rfl, le_refl _⟩
  have hfold : Emptier ((l.map size).foldl (binStep cap) _) ((m.map size').foldl (binStep cap) _) :=
    hstart.foldl h
  unfold Emptier at hfold
  omega

theorem length_pack_pos {l : List α} (h : l ≠ []) : 0 < (pack cap size l).length := by
  refine List.length_pos_iff.mpr fun hnil => h ?_
  have hall : (pack cap size l).flatten = l := flatten_pack l
  rw [← hall, hnil]
  rfl

end pack

/-! ### Index levels -/

section levels

/-- The node counts of the levels above `c` blocks, `k` children to a node at most, up to the single
    root; there is none above a single block.  The first argument bounds the number of levels. -/
def levelsFrom (k : Nat) : Nat → Nat → List Nat
  | 0, _ => []
  | fuel + 1, c => if c ≤ 1 then [] else (c + k - 1) / k :: levelsFrom k fuel ((c + k - 1) / k)

def levelSizes (k c : Nat) : List Nat := levelsFrom k c c

variable {k : Nat}

theorem ceil_lt (hk : 2 ≤ k) {c : Nat} (hc : 1 < c) : (c + k - 1) / k < c := by
  rw [Nat.div_lt_iff_lt_mul (by omega)]
  have : c * 2 ≤ c * k := Nat.mul_le_mul_left c hk
  have : 2 * k ≤ c * k := Nat.mul_le_mul_right k hc
  omega

theorem ceil_pos (hk : 2 ≤ k) {c : Nat} (hc : 0 < c) : 0 < (c + k - 1) / k :=
  Nat.div_pos (by omega) (by omega)

/-- Levels shrink, so any bound from `c` on gives the same levels. -/
theorem levelsFrom_eq (hk : 2 ≤ k) : ∀ (f g c : Nat), c ≤ f → c ≤ g →
    levelsFrom k f c = levelsFrom k g c := by
  intro f
  induction f with
  | zero =>
    intro g c hf _
    obtain rfl := Nat.le_zero.mp hf
    cases g <;> simp [levelsFrom]
  | succ f ih =>
    intro g c hf hg
    cases g with
    | zero =>
      obtain rfl := Nat.le_zero.mp hg
      simp [levelsFrom]
    | succ g =>
      rw [levelsFrom, levelsFrom]
      split_ifs with hone
      · rfl
      · have hlt := ceil_lt hk (not_le.mp hone)
        rw [ih g _ (by omega) (by omega)]

theorem le_ceil_mul (hk : 2 ≤ k) (c : Nat) : c ≤ (c + k - 1) / k * k := by
  have hdiv := Nat.div_add_mod (c + k - 1) k
  have hmod : (c + k - 1) % k < k := Nat.mod_lt _ (by omega)
  rw [Nat.mul_comm] at hdiv
  omega

theorem levelSizes_of_le_one {c : Nat} (hc : c ≤ 1) : levelSizes k c = [] := by
  cases c <;> simp_all [levelSizes, levelsFrom]

theorem levelSizes_of_one_lt (hk : 2 ≤ k) {c : Nat} (hc : 1 < c) :
    levelSizes k c = (c + k - 1) / k :: levelSizes k ((c + k - 1) / k) := by
  obtain ⟨d, rfl⟩ : ∃ d, c = d + 1 := ⟨c - 1, by omega⟩
  have hlt := ceil_lt hk hc
  rw [levelSizes, levelsFrom, if_neg (by omega), levelsFrom_eq hk d _ _ (by omega) le_rfl,
    ← levelSizes]

/-- Each level at least halves the number of nodes. -/
theorem length_levelSizes_le (hk : 2 ≤ k) : ∀ (n c : Nat), c ≤ 2 ^ n → (levelSizes k c).length ≤ n := by
  intro n
  induction n with
  | zero =>
    intro c hc
    rw [levelSizes_of_le_one (by simpa using hc)]
    exact le_rfl
  | succ n ih =>
    intro c hc
    by_cases hone : c ≤ 1
    · rw [levelSizes_of_le_one hone]
      exact Nat.zero_le _
    · rw [levelSizes_of_one_lt hk (not_le.mp hone), List.length_cons]
      have hhalf : (c + k - 1) / k ≤ 2 ^ n := by
        rw [← Nat.lt_succ_iff, Nat.div_lt_iff_lt_mul (by omega), Nat.succ_mul]
        have : 2 ^ n * 2 ≤ 2 ^ n * k := Nat.mul_le_mul_left _ hk
        rw [pow_succ] at hc
        omega
      exact Nat.succ_le_succ (ih _ hhalf)

theorem sum_levelSizes_mono (hk : 2 ≤ k) : Monotone fun c => (levelSizes k c).sum := by
  intro c d hcd
  induction d using Nat.strong_induction_on generalizing c with
  | _ d ih =>
    simp only
    by_cases hc : c ≤ 1
    · rw [levelSizes_of_le_one hc]
      exact Nat.zero_le _
    · have hnodes : (c + k - 1) / k ≤ (d + k - 1) / k := Nat.div_le_div_right (by omega)
      have hrest := ih ((d + k - 1) / k) (ceil_lt hk (by omega)) hnodes
      rw [levelSizes_of_one_lt hk (not_le.mp hc), levelSizes_of_one_lt hk (by omega : 1 < d),
        List.sum_cons, List.sum_cons]
      exact Nat.add_le_add hnodes hrest

/-- Blocks and index nodes together grow with the number of blocks. -/
theorem total_strictMono (hk : 2 ≤ k) : StrictMono fun c => c + (levelSizes k c).sum := by
  intro c d hcd
  have := sum_levelSizes_mono hk hcd.le
  simp only at *
  omega

end levels

/-! ### Sharing the children of one level out -/

section shareOut

/-- Hand a list out to `m` nodes, each time as many as the nodes that are left must take. -/
def shareOut : Nat → List α → List (List α)
  | 0, _ => []
  | m + 1, l => l.take ((l.length + m) / (m + 1)) :: shareOut m (l.drop ((l.length + m) / (m + 1)))

theorem length_shareOut : ∀ (m : Nat) (l : List α), (shareOut m l).length = m := by
  intro m
  induction m with
  | zero => intro l; rfl
  | succ m ih => intro l; rw [shareOut, List.length_cons, ih]

theorem flatten_shareOut : ∀ (m : Nat) (l : List α), 0 < m → (shareOut m l).flatten = l := by
  intro m
  induction m with
  | zero => intro l hm; omega
  | succ m ih =>
    intro l _
    rw [shareOut, List.flatten_cons]
    rcases Nat.eq_zero_or_pos m with rfl | hm
    · simp [shareOut]
    · rw [ih _ hm, List.take_append_drop]

theorem shareOut_map {β : Type*} (f : α → β) : ∀ (m : Nat) (l : List α),
    shareOut m (l.map f) = (shareOut m l).map (List.map f) := by
  intro m
  induction m with
  | zero => intro l; rfl
  | succ m ih =>
    intro l
    rw [shareOut, shareOut, List.map_cons, List.length_map, List.map_take, ← ih, List.map_drop]

/-- The share of the first of `m + 1` nodes, and what it leaves: neither is too small for one child
    each or too large for `c` children each. -/
theorem share_bounds {n m c : Nat} (hlow : m + 1 ≤ n) (hhigh : n ≤ (m + 1) * c) :
    1 ≤ (n + m) / (m + 1) ∧ (n + m) / (m + 1) ≤ c ∧ m ≤ n - (n + m) / (m + 1) ∧
      n - (n + m) / (m + 1) ≤ m * c := by
  have hdiv := Nat.div_add_mod (n + m) (m + 1)
  have hmod : (n + m) % (m + 1) < m + 1 := Nat.mod_lt _ m.succ_pos
  generalize (n + m) / (m + 1) = k at hdiv ⊢
  generalize (n + m) % (m + 1) = r at hdiv hmod
  have hexp : (m + 1) * k = m * k + k := by ring
  have hexpc : (m + 1) * c = m * c + c := by ring
  rw [hexp] at hdiv
  rw [hexpc] at hhigh
  have hk : 1 ≤ k := by
    by_contra hzero
    obtain rfl : k = 0 := by omega
    omega
  have hkc : k ≤ c := by
    by_contra hlt
    have : m * (c + 1) ≤ m * k := Nat.mul_le_mul_left m (by omega)
    have : m * (c + 1) = m * c + m := by ring
    omega
  have hmk : m * k ≤ m * c := Nat.mul_le_mul_left m hkc
  have hleft : m ≤ n - k := by
    rcases Nat.eq_or_lt_of_le hk with rfl | htwo
    · omega
    · have : m * 2 ≤ m * k := Nat.mul_le_mul_left m htwo
      omega
  exact ⟨hk, hkc, hleft, by omega⟩

/-- Every node gets a child when there are enough, and none gets more than `c` when all fit. -/
theorem shareOut_bounds {c : Nat} : ∀ (m : Nat) (l : List α), m ≤ l.length → l.length ≤ m * c →
    ∀ g ∈ shareOut m l, 1 ≤ g.length ∧ g.length ≤ c := by
  intro m
  induction m with
  | zero => intro l _ _ g hg; cases hg
  | succ m ih =>
    intro l hlow hhigh g hg
    obtain ⟨hone, hc, hrest, hrestc⟩ := share_bounds hlow hhigh
    rw [shareOut] at hg
    rcases List.mem_cons.mp hg with rfl | hg
    · rw [List.length_take]
      omega
    · exact ih _ (by rwa [List.length_drop]) (by rwa [List.length_drop]) g hg

end shareOut

end Btrfs.Lib
