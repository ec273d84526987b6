/-
  Btrfs/Lib/Records.lean
  ======================
  **Sorted records** — what an ordered store of key-value pairs holds.

  A key may occur more than once.  A new record goes after those with the same key, and
  a lookup, an update or a deletion takes the first of them.  `keep p` is the part of
  the store whose keys satisfy `p`; the lemmas say what each operation does to a single
  lookup and to such a part.
-/
import Mathlib

namespace Btrfs.Lib

/-- Key-value pairs in the order of their keys. -/
structure Records (κ β : Type) [LinearOrder κ] where
  list : List (κ × β)
  sorted : list.Pairwise fun a b => a.1 ≤ b.1

namespace Records

variable {κ β : Type} [LinearOrder κ]

instance [DecidableEq β] : DecidableEq (Records κ β) := fun r s =>
  decidable_of_iff (r.list = s.list) ⟨fun h => by cases r; cases s; cases h; rfl, fun h => h ▸ rfl⟩

/-! ### Operations -/

def empty : Records κ β := ⟨[], List.Pairwise.nil⟩

/-- Put a pair after all those with a smaller or equal key. -/
def place (k : κ) (v : β) : List (κ × β) → List (κ × β)
  | [] => [(k, v)]
  | e :: l => if e.1 ≤ k then e :: place k v l else (k, v) :: e :: l

/-- Replace the value of the first pair with the key. -/
def setFirst (k : κ) (v : β) : List (κ × β) → List (κ × β)
  | [] => []
  | e :: l => if e.1 = k then (k, v) :: l else e :: setFirst k v l

theorem mem_place {k : κ} {v : β} {l : List (κ × β)} {e : κ × β} :
    e ∈ place k v l ↔ e = (k, v) ∨ e ∈ l := by
  induction l with
  | nil => simp [place]
  | cons a l ih =>
    rw [place]
    split_ifs with ha
    · rw [List.mem_cons, ih, List.mem_cons]
      tauto
    · rw [List.mem_cons]

theorem pairwise_place {k : κ} {v : β} {l : List (κ × β)}
    (h : l.Pairwise fun a b => a.1 ≤ b.1) : (place k v l).Pairwise fun a b => a.1 ≤ b.1 := by
  induction l with
  | nil => exact List.pairwise_singleton _ _
  | cons a l ih =>
    obtain ⟨ha, hl⟩ := List.pairwise_cons.mp h
    rw [place]
    split_ifs with hak
    · refine List.pairwise_cons.mpr ⟨?_, ih hl⟩
      intro e he
      rcases mem_place.mp he with rfl | he
      · exact hak
      · exact ha e he
    · refine List.pairwise_cons.mpr ⟨?_, h⟩
      intro e he
      have hka : k ≤ a.1 := le_of_not_ge hak
      rcases List.mem_cons.mp he with rfl | he
      · exact hka
      · exact hka.trans (ha e he)

theorem map_fst_setFirst (k : κ) (v : β) (l : List (κ × β)) :
    (setFirst k v l).map Prod.fst = l.map Prod.fst := by
  induction l with
  | nil => rfl
  | cons a l ih =>
    rw [setFirst]
    split_ifs with ha
    · rw [List.map_cons, List.map_cons, ha]
    · rw [List.map_cons, List.map_cons, ih]

theorem pairwise_of_keys {l m : List (κ × β)} (hkeys : m.map Prod.fst = l.map Prod.fst)
    (h : l.Pairwise fun a b => a.1 ≤ b.1) : m.Pairwise fun a b => a.1 ≤ b.1 := by
  have hl : (l.map Prod.fst).Pairwise (· ≤ ·) := List.pairwise_map.mpr h
  rw [← hkeys] at hl
  exact List.pairwise_map.mp hl

def insert (r : Records κ β) (k : κ) (v : β) : Records κ β :=
  ⟨place k v r.list, pairwise_place r.sorted⟩

def update (r : Records κ β) (k : κ) (v : β) : Records κ β :=
  ⟨setFirst k v r.list, pairwise_of_keys (map_fst_setFirst k v r.list) r.sorted⟩

def erase (r : Records κ β) (k : κ) : Records κ β :=
  ⟨r.list.eraseP fun e => decide (e.1 = k), r.sorted.sublist List.eraseP_sublist⟩

/-- Insert pairs one after the other. -/
def insertAll (r : Records κ β) (items : List (κ × β)) : Records κ β :=
  items.foldl (fun r e => r.insert e.1 e.2) r

/-- The first value with the key. -/
def find? (r : Records κ β) (k : κ) : Option β :=
  (r.list.find? fun e => decide (e.1 = k)).map Prod.snd

/-- The pairs whose keys satisfy `p`. -/
def keep (r : Records κ β) (p : κ → Bool) : List (κ × β) := r.list.filter fun e => p e.1

/-- Remove the pairs whose keys satisfy `p`. -/
def removeAll (r : Records κ β) (p : κ → Bool) : Records κ β :=
  ⟨r.keep fun k => !p k, r.sorted.sublist List.filter_sublist⟩

/-! ### What the operations do -/

/-- In sorted pairs, those up to a key stand before those after it. -/
theorem place_split {k : κ} {v : β} {l : List (κ × β)} (h : l.Pairwise fun a b => a.1 ≤ b.1) :
    ∃ lo hi, l = lo ++ hi ∧ place k v l = lo ++ (k, v) :: hi ∧
      (∀ e ∈ lo, e.1 ≤ k) ∧ ∀ e ∈ hi, k < e.1 := by
  induction l with
  | nil => exact ⟨[], [], rfl, rfl, nofun, nofun⟩
  | cons a l ih =>
    obtain ⟨ha, hl⟩ := List.pairwise_cons.mp h
    rw [place]
    split_ifs with hak
    · obtain ⟨lo, hi, heq, hplace, hlo, hhi⟩ := ih hl
      refine ⟨a :: lo, hi, by rw [heq, List.cons_append], by rw [hplace, List.cons_append], ?_, hhi⟩
      intro e he
      rcases List.mem_cons.mp he with rfl | he
      · exact hak
      · exact hlo e he
    · refine ⟨[], a :: l, rfl, rfl, nofun, ?_⟩
      intro e he
      have hka : k < a.1 := lt_of_not_ge hak
      rcases List.mem_cons.mp he with rfl | he
      · exact hka
      · exact lt_of_lt_of_le hka (ha e he)

variable {r : Records κ β} {k k' : κ} {v : β} {p : κ → Bool}

theorem find?_eq_none : r.find? k = none ↔ ∀ e ∈ r.list, e.1 ≠ k := by
  simp [find?]

theorem mem_of_find? (h : r.find? k = some v) : (k, v) ∈ r.list := by
  obtain ⟨e, he, rfl⟩ := Option.map_eq_some_iff.mp h
  have hk := List.find?_some he
  rw [decide_eq_true_eq] at hk
  rw [← hk]
  exact List.mem_of_find?_eq_some he

theorem mem_insert {e : κ × β} : e ∈ (r.insert k v).list ↔ e = (k, v) ∨ e ∈ r.list := mem_place

theorem find?_insert_of_ne (h : k ≠ k') : (r.insert k v).find? k' = r.find? k' := by
  obtain ⟨lo, hi, heq, hplace, -, -⟩ := place_split (k := k) (v := v) r.sorted
  simp only [find?, insert]
  rw [hplace, heq, List.find?_append, List.find?_append, List.find?_cons_of_neg (by simpa using h)]

/-- A new record is behind those with its key. -/
theorem find?_insert_self : (r.insert k v).find? k = some ((r.find? k).getD v) := by
  obtain ⟨lo, hi, heq, hplace, -, hhi⟩ := place_split (k := k) (v := v) r.sorted
  have hnone : (hi.find? fun e => decide (e.1 = k)) = none := by
    rw [List.find?_eq_none]
    intro e he
    simpa using (hhi e he).ne'
  simp only [find?, insert]
  rw [hplace, heq, List.find?_append, List.find?_append, List.find?_cons_of_pos (by simp), hnone]
  cases lo.find? fun e => decide (e.1 = k) with
  | none => rfl
  | some e => rfl

theorem keep_insert_of_false (h : p k = false) : (r.insert k v).keep p = r.keep p := by
  obtain ⟨lo, hi, heq, hplace, -, -⟩ := place_split (k := k) (v := v) r.sorted
  simp only [keep, insert]
  rw [hplace, heq, List.filter_append, List.filter_append, List.filter_cons_of_neg (by simp [h])]

/-- A record whose key is the largest of its part goes to the end of it. -/
theorem keep_insert_of_le (h : p k = true) (hle : ∀ e ∈ r.keep p, e.1 ≤ k) :
    (r.insert k v).keep p = r.keep p ++ [(k, v)] := by
  obtain ⟨lo, hi, heq, hplace, -, hhi⟩ := place_split (k := k) (v := v) r.sorted
  have hnil : (hi.filter fun e => p e.1) = [] := by
    rw [List.filter_eq_nil_iff]
    intro e he hpe
    have hmem : e ∈ r.keep p := by
      rw [keep, heq]
      exact List.mem_filter.mpr ⟨List.mem_append_right _ he, hpe⟩
    exact absurd (hle e hmem) (not_le_of_gt (hhi e he))
  simp only [keep, insert]
  rw [hplace, heq, List.filter_append, List.filter_append, List.filter_cons_of_pos (by simp [h]), hnil,
    List.append_nil]

theorem keep_insert_perm (h : p k = true) : ((r.insert k v).keep p).Perm ((k, v) :: r.keep p) := by
  obtain ⟨lo, hi, heq, hplace, -, -⟩ := place_split (k := k) (v := v) r.sorted
  have hnew : (r.insert k v).keep p =
      (lo.filter fun e => p e.1) ++ (k, v) :: hi.filter fun e => p e.1 := by
    simp only [keep, insert]
    rw [hplace, List.filter_append, List.filter_cons_of_pos (by simpa using h)]
  have hold : r.keep p = (lo.filter fun e => p e.1) ++ hi.filter fun e => p e.1 := by
    rw [keep, heq, List.filter_append]
  rw [hnew, hold]
  exact List.perm_middle

/-! ### Inserting many -/

section many

variable {items : List (κ × β)}

theorem insertAll_append (items' : List (κ × β)) :
    r.insertAll (items ++ items') = (r.insertAll items).insertAll items' := List.foldl_append

theorem keep_insertAll_of_false (h : ∀ e ∈ items, p e.1 = false) :
    (r.insertAll items).keep p = r.keep p := by
  induction items generalizing r with
  | nil => rfl
  | cons e l ih =>
    rw [insertAll, List.foldl_cons]
    exact (ih fun e' he' => h e' (List.mem_cons_of_mem _ he')).trans
      (keep_insert_of_false (h e List.mem_cons_self))

theorem find?_insertAll_of_ne (h : ∀ e ∈ items, e.1 ≠ k) :
    (r.insertAll items).find? k = r.find? k := by
  induction items generalizing r with
  | nil => rfl
  | cons e l ih =>
    rw [insertAll, List.foldl_cons]
    exact (ih fun e' he' => h e' (List.mem_cons_of_mem _ he')).trans
      (find?_insert_of_ne (h e List.mem_cons_self))

theorem mem_insertAll {e : κ × β} : e ∈ (r.insertAll items).list ↔ e ∈ items ∨ e ∈ r.list := by
  induction items generalizing r with
  | nil => simp [insertAll]
  | cons a l ih =>
    rw [insertAll, List.foldl_cons]
    refine ih.trans ?_
    rw [mem_insert, List.mem_cons]
    tauto

theorem keep_insertAll_perm (h : ∀ e ∈ items, p e.1 = true) :
    ((r.insertAll items).keep p).Perm (items ++ r.keep p) := by
  induction items generalizing r with
  | nil => exact List.Perm.refl _
  | cons e l ih =>
    rw [insertAll, List.foldl_cons]
    refine (ih fun e' he' => h e' (List.mem_cons_of_mem _ he')).trans ?_
    refine ((keep_insert_perm (h e List.mem_cons_self)).append_left l).trans ?_
    exact List.perm_middle

/-- Ordered items that follow those kept already are kept in their order. -/
theorem keep_insertAll (h : ∀ e ∈ items, p e.1 = true)
    (hord : items.Pairwise fun a b => a.1 < b.1)
    (hafter : ∀ e ∈ r.keep p, ∀ e' ∈ items, e.1 ≤ e'.1) :
    (r.insertAll items).keep p = r.keep p ++ items := by
  induction items generalizing r with
  | nil => simp [insertAll]
  | cons e l ih =>
    obtain ⟨hfirst, hrest⟩ := List.pairwise_cons.mp hord
    have hone := keep_insert_of_le (r := r) (v := e.2) (h e List.mem_cons_self)
      fun e' he' => hafter e' he' e List.mem_cons_self
    rw [insertAll, List.foldl_cons]
    refine (ih (fun e' he' => h e' (List.mem_cons_of_mem _ he')) hrest ?_).trans ?_
    · intro a ha b hb
      rw [hone] at ha
      rcases List.mem_append.mp ha with ha | ha
      · exact hafter a ha b (List.mem_cons_of_mem _ hb)
      · rw [List.mem_singleton.mp ha]
        exact (hfirst b hb).le
    · rw [hone, List.append_assoc]
      rfl

end many

theorem find?_setFirst_of_ne (h : k ≠ k') (l : List (κ × β)) :
    ((setFirst k v l).find? fun e => decide (e.1 = k')) = l.find? fun e => decide (e.1 = k') := by
  induction l with
  | nil => rfl
  | cons a l ih =>
    rw [setFirst]
    split_ifs with ha
    · rw [List.find?_cons_of_neg (by simpa using h), List.find?_cons_of_neg (by simpa [ha] using h)]
    · rw [List.find?_cons, List.find?_cons, ih]

theorem find?_update_of_ne (h : k ≠ k') : (r.update k v).find? k' = r.find? k' := by
  simp only [find?, update, find?_setFirst_of_ne h]

theorem find?_update_self (h : (r.find? k).isSome) : (r.update k v).find? k = some v := by
  have hfirst : ∀ l : List (κ × β), (l.find? fun e => decide (e.1 = k)).isSome →
      ((setFirst k v l).find? fun e => decide (e.1 = k)) = some (k, v) := by
    intro l
    induction l with
    | nil => intro hl; cases hl
    | cons a l ih =>
      intro hl
      rw [setFirst]
      split_ifs with ha
      · rw [List.find?_cons_of_pos (by simp)]
      · rw [List.find?_cons_of_neg (by simpa using ha)] at hl ⊢
        exact ih hl
  have hsome : (r.list.find? fun e => decide (e.1 = k)).isSome := by
    rw [find?, Option.isSome_map] at h
    exact h
  rw [find?, update, hfirst r.list hsome]
  rfl

theorem filter_setFirst_of_false (h : p k = false) (l : List (κ × β)) :
    ((setFirst k v l).filter fun e => p e.1) = l.filter fun e => p e.1 := by
  induction l with
  | nil => rfl
  | cons a l ih =>
    rw [setFirst]
    split_ifs with ha
    · rw [List.filter_cons_of_neg (by simp [h]), List.filter_cons_of_neg (by simp [ha, h])]
    · rw [List.filter_cons, List.filter_cons, ih]

theorem keep_update_of_false (h : p k = false) : (r.update k v).keep p = r.keep p :=
  filter_setFirst_of_false h r.list

theorem keep_update (h : p k = true) : (r.update k v).keep p = setFirst k v (r.keep p) := by
  simp only [keep, update]
  induction r.list with
  | nil => rfl
  | cons a l ih =>
    rw [setFirst]
    split_ifs with ha
    · rw [List.filter_cons_of_pos (by simpa using h), List.filter_cons_of_pos (by rw [ha]; exact h),
        setFirst, if_pos ha]
    · by_cases hp : p a.1 = true
      · rw [List.filter_cons_of_pos (by exact hp), List.filter_cons_of_pos (by exact hp), setFirst,
          if_neg ha, ih]
      · rw [List.filter_cons_of_neg (by exact hp), List.filter_cons_of_neg (by exact hp), ih]

theorem mem_setFirst_of_ne {e : κ × β} {l : List (κ × β)} (he : e ∈ l) (hne : e.1 ≠ k) :
    e ∈ setFirst k v l := by
  induction l with
  | nil => cases he
  | cons a l ih =>
    rw [setFirst]
    split_ifs with ha
    · rcases List.mem_cons.mp he with rfl | he
      · exact absurd ha hne
      · exact List.mem_cons_of_mem _ he
    · rcases List.mem_cons.mp he with rfl | he
      · exact List.mem_cons_self
      · exact List.mem_cons_of_mem _ (ih he)

theorem mem_setFirst {e : κ × β} {l : List (κ × β)} (h : e ∈ setFirst k v l) :
    e = (k, v) ∨ e ∈ l := by
  induction l with
  | nil => cases h
  | cons a l ih =>
    rw [setFirst] at h
    split_ifs at h with ha
    · rcases List.mem_cons.mp h with rfl | h
      · exact Or.inl rfl
      · exact Or.inr (List.mem_cons_of_mem _ h)
    · rcases List.mem_cons.mp h with rfl | h
      · exact Or.inr List.mem_cons_self
      · exact (ih h).imp_right (List.mem_cons_of_mem _)

theorem mem_update {e : κ × β} (h : e ∈ (r.update k v).list) : e = (k, v) ∨ e ∈ r.list :=
  mem_setFirst h

theorem mem_erase {e : κ × β} (h : e ∈ (r.erase k).list) : e ∈ r.list := List.mem_of_mem_eraseP h

theorem find?_erase_of_ne (h : k ≠ k') : (r.erase k).find? k' = r.find? k' := by
  simp only [find?, erase]
  congr 1
  induction r.list with
  | nil => rfl
  | cons a l ih =>
    by_cases ha : a.1 = k
    · rw [List.eraseP_cons_of_pos (by simpa using ha), List.find?_cons_of_neg]
      simpa [ha] using h
    · rw [List.eraseP_cons_of_neg (by simpa using ha), List.find?_cons, List.find?_cons, ih]

theorem keep_erase_of_false (h : p k = false) : (r.erase k).keep p = r.keep p := by
  simp only [keep, erase]
  induction r.list with
  | nil => rfl
  | cons a l ih =>
    by_cases ha : a.1 = k
    · rw [List.eraseP_cons_of_pos (by simpa using ha), List.filter_cons_of_neg (by simp [ha, h])]
    · rw [List.eraseP_cons_of_neg (by simpa using ha), List.filter_cons, List.filter_cons, ih]

theorem keep_erase (h : p k = true) :
    (r.erase k).keep p = (r.keep p).eraseP fun e => decide (e.1 = k) := by
  simp only [keep, erase]
  induction r.list with
  | nil => rfl
  | cons a l ih =>
    by_cases ha : a.1 = k
    · rw [List.eraseP_cons_of_pos (by simpa using ha), List.filter_cons_of_pos (by simp [ha, h]),
        List.eraseP_cons_of_pos (by simpa using ha)]
    · rw [List.eraseP_cons_of_neg (by simpa using ha), List.filter_cons, List.filter_cons, ih]
      split_ifs
      · rw [List.eraseP_cons_of_neg (by simpa using ha)]
      · rfl

theorem setFirst_append {lo hi : List (κ × β)} {v' : β} (h : ∀ e ∈ lo, e.1 ≠ k) :
    setFirst k v' (lo ++ (k, v) :: hi) = lo ++ (k, v') :: hi := by
  induction lo with
  | nil => rw [List.nil_append, setFirst, if_pos rfl, List.nil_append]
  | cons a lo ih =>
    rw [List.cons_append, setFirst, if_neg (h a List.mem_cons_self),
      ih fun e he => h e (List.mem_cons_of_mem _ he), List.cons_append]

theorem mem_removeAll {e : κ × β} : e ∈ (r.removeAll p).list ↔ e ∈ r.list ∧ p e.1 = false := by
  simp [removeAll, keep]

theorem keep_removeAll_self : (r.removeAll p).keep p = [] := by
  simp [keep, removeAll, List.filter_filter]

theorem find?_removeAll (h : p k = false) : (r.removeAll p).find? k = r.find? k := by
  simp only [find?, removeAll, keep]
  congr 1
  induction r.list with
  | nil => rfl
  | cons a l ih =>
    by_cases ha : a.1 = k
    · rw [List.filter_cons_of_pos (by simp [ha, h]), List.find?_cons_of_pos (by simpa using ha),
        List.find?_cons_of_pos (by simpa using ha)]
    · rw [List.find?_cons_of_neg (by simpa using ha), List.filter_cons]
      split_ifs
      · rw [List.find?_cons_of_neg (by simpa using ha), ih]
      · exact ih

/-- Removing one part leaves another alone. -/
theorem keep_removeAll {q : κ → Bool} (h : ∀ k, q k = true → p k = false) :
    (r.removeAll p).keep q = r.keep q := by
  simp only [keep, removeAll, List.filter_filter]
  apply List.filter_congr
  intro e _
  by_cases hq : q e.1 = true
  · simp [hq, h _ hq]
  · simp [hq]

/-! ### Distinct keys -/

/-- What is kept decides what is found. -/
theorem find?_of_keep {r' : Records κ β} (h : r'.keep p = r.keep p) (hk : p k = true) :
    r'.find? k = r.find? k := by
  have hfind : ∀ r : Records κ β, r.find? k = ((r.keep p).find? fun e => decide (e.1 = k)).map
      Prod.snd := by
    intro r
    rw [find?, keep, List.find?_filter]
    congr 2
    funext e
    by_cases he : e.1 = k
    · simp [he, hk]
    · simp [he]
  rw [hfind, hfind, h]

theorem keep_eq_filter {q : κ → Bool} (hq : ∀ k, q k = true → p k = true) :
    r.keep q = (r.keep p).filter fun e => q e.1 := by
  rw [keep, keep, List.filter_filter]
  refine List.filter_congr fun e _ => ?_
  by_cases he : q e.1 = true
  · simp [he, hq _ he]
  · simp [he]

/-- No two of the pairs whose keys satisfy `p` have the same key. -/
def Distinct (r : Records κ β) (p : κ → Bool) : Prop := ((r.keep p).map Prod.fst).Nodup

theorem find?_eq_some_iff (h : r.Distinct p) (hk : p k = true) :
    r.find? k = some v ↔ (k, v) ∈ r.list := by
  refine ⟨mem_of_find?, fun hmem => ?_⟩
  cases hfind : r.find? k with
  | none => exact absurd rfl (find?_eq_none.mp hfind _ hmem)
  | some w =>
    have hw := mem_of_find? hfind
    have hin : ∀ {x : β}, (k, x) ∈ r.list → (k, x) ∈ r.keep p :=
      fun hx => List.mem_filter.mpr ⟨hx, hk⟩
    have heq := List.inj_on_of_nodup_map h (hin hw) (hin hmem) rfl
    rw [(Prod.mk.inj heq).2]

namespace Distinct

theorem of_keep {r' : Records κ β} (h : r.Distinct p) (hkeep : r'.keep p = r.keep p) :
    r'.Distinct p := by
  rw [Distinct, hkeep]
  exact h

theorem mono {q : κ → Bool} (h : r.Distinct p) (hq : ∀ k, q k = true → p k = true) :
    r.Distinct q := by
  rw [Distinct, keep_eq_filter hq]
  exact List.Nodup.sublist (List.filter_sublist.map _) h

theorem insert (h : r.Distinct p) (hfresh : r.find? k = none) : (r.insert k v).Distinct p := by
  by_cases hk : p k = true
  · have hperm := (keep_insert_perm (r := r) (v := v) hk).map Prod.fst
    rw [Distinct, hperm.nodup_iff, List.map_cons, List.nodup_cons]
    refine ⟨?_, h⟩
    intro hmem
    obtain ⟨e, he, heq⟩ := List.mem_map.mp hmem
    exact find?_eq_none.mp hfresh e (List.mem_filter.mp he).1 heq
  · exact h.of_keep (keep_insert_of_false (by simpa using hk))

theorem update (h : r.Distinct p) : (r.update k v).Distinct p := by
  by_cases hk : p k = true
  · rw [Distinct, keep_update hk, map_fst_setFirst]
    exact h
  · exact h.of_keep (keep_update_of_false (by simpa using hk))

theorem erase (h : r.Distinct p) : (r.erase k).Distinct p :=
  List.Nodup.sublist (((List.eraseP_sublist).filter _).map _) h

theorem find?_erase_self (h : r.Distinct p) (hk : p k = true) : (r.erase k).find? k = none := by
  rw [find?_eq_none]
  intro e he heq
  have hmem := List.mem_of_mem_eraseP he
  obtain ⟨a, l₁, l₂, hbefore, ha, hlist, herase⟩ :=
    List.exists_of_eraseP (p := fun e : κ × β => decide (e.1 = k)) hmem (by simpa using heq)
  simp only [Records.erase] at he
  rw [herase] at he
  rcases List.mem_append.mp he with he | he
  · exact absurd (by simpa using heq) (hbefore e he)
  · -- the pair taken out and this one have the same key
    rw [Distinct, keep, hlist, List.filter_append, List.map_append, List.nodup_append] at h
    have htail := h.2.1
    have hak : a.1 = k := by simpa using ha
    rw [List.filter_cons_of_pos (by rw [hak]; exact hk), List.map_cons, List.nodup_cons] at htail
    refine htail.1 (List.mem_map.mpr ⟨e, List.mem_filter.mpr ⟨he, ?_⟩, heq.trans hak.symm⟩)
    rw [heq]
    exact hk

end Distinct

theorem removeAll_of_keep_eq_nil (h : r.keep p = []) : r.removeAll p = r := by
  have hlist : (r.removeAll p).list = r.list := by
    refine List.filter_eq_self.mpr fun e he => ?_
    have hnot := List.filter_eq_nil_iff.mp h e he
    simpa using hnot
  cases r
  simpa [removeAll] using hlist

end Records

end Btrfs.Lib
