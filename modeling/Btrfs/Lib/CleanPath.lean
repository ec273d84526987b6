/-
  Btrfs/Lib/CleanPath.lean
  ========================
  **Paths as strings** — the elements that lexical cleaning leaves.

  A path is a string of elements with separators between them.  Cleaning drops empty
  elements and `.`, and lets `..` take back the element before it.  What is left has no
  empty element and no `.`, and `..` only in front; of such a list the written path gives
  every element back.
-/
import Mathlib

namespace Btrfs.Lib

variable {α : Type} (sep dot : α)

/-! ## 1. Cleaning -/

/-- A path in its written form. -/
def render (rooted : Bool) (es : List (List α)) : List α :=
  if rooted then sep :: [sep].intercalate es
  else if es = [] then [dot]
  else [sep].intercalate es

section cleaning

variable [DecidableEq α]

def isRooted (p : List α) : Bool := p.head? == some sep

/-- One more element; those kept so far stand with the last one first. -/
def cleanStep (rooted : Bool) (kept : List (List α)) (e : List α) : List (List α) :=
  if e = [] ∨ e = [dot] then kept
  else if e = [dot, dot] then
    match kept with
    | [] => if rooted then [] else [e]
    | top :: rest => if top = [dot, dot] then e :: kept else rest
  else e :: kept

/-- The elements that are left of a path. -/
def cleaned (p : List α) : List (List α) :=
  ((p.splitOn sep).foldl (cleanStep dot (isRooted sep p)) []).reverse

def clean (p : List α) : List α := render sep dot (isRooted sep p) (cleaned sep dot p)

end cleaning

/-! ## 2. Normal lists of elements -/

/-- No empty element, no `.`, and `..` in front only, where the path is not rooted. -/
structure Normal (rooted : Bool) (es : List (List α)) : Prop where
  plain : ∀ e ∈ es, e ≠ [] ∧ e ≠ [dot] ∧ sep ∉ e
  front : ∃ n rest, es = List.replicate n [dot, dot] ++ rest ∧ [dot, dot] ∉ rest ∧
    (rooted = true → n = 0)

variable {sep dot} {rooted : Bool} {es : List (List α)} {e : List α} {p : List α}

theorem Normal.nil : Normal sep dot rooted [] :=
  ⟨nofun, 0, [], rfl, List.not_mem_nil, fun _ => rfl⟩

theorem Normal.of_concat (h : Normal sep dot rooted (es ++ [e])) : Normal sep dot rooted es := by
  obtain ⟨n, rest, heq, hrest, hroot⟩ := h.front
  refine ⟨fun x hx => h.plain x (List.mem_append_left _ hx), ?_⟩
  rcases List.eq_nil_or_concat rest with rfl | ⟨rest, x, rfl⟩
  · refine ⟨n - 1, [], ?_, List.not_mem_nil, fun hr => by rw [hroot hr]⟩
    rw [List.append_nil] at heq ⊢
    rw [← List.dropLast_replicate, ← heq, List.dropLast_concat]
  · rw [List.concat_eq_append] at heq hrest
    refine ⟨n, rest, ?_, fun hmem => hrest (List.mem_append_left _ hmem), hroot⟩
    rw [← List.append_assoc] at heq
    exact (List.append_inj' heq rfl).1

/-- Before a `..` there is nothing else, and the path is not rooted. -/
theorem Normal.of_concat_dots (h : Normal sep dot rooted (es ++ [[dot, dot]])) :
    rooted = false ∧ ∀ x ∈ es, x = [dot, dot] := by
  obtain ⟨n, rest, heq, hrest, hroot⟩ := h.front
  rcases List.eq_nil_or_concat rest with rfl | ⟨rest, x, rfl⟩
  · rw [List.append_nil] at heq
    have hall : ∀ x ∈ es ++ [[dot, dot]], x = [dot, dot] := fun x hx =>
      List.eq_of_mem_replicate (heq ▸ hx)
    refine ⟨?_, fun x hx => hall x (List.mem_append_left _ hx)⟩
    cases rooted with
    | false => rfl
    | true =>
      rw [hroot rfl] at heq
      exact absurd heq (List.append_ne_nil_of_right_ne_nil _ nofun)
  · rw [List.concat_eq_append] at heq hrest
    rw [← List.append_assoc] at heq
    have hx := List.singleton_inj.mp (List.append_inj' heq rfl).2
    subst hx
    exact absurd (List.mem_append_right _ (List.mem_singleton_self _)) hrest

theorem Normal.snoc (h : Normal sep dot rooted es) (hplain : e ≠ [] ∧ e ≠ [dot] ∧ sep ∉ e)
    (hne : e ≠ [dot, dot]) : Normal sep dot rooted (es ++ [e]) := by
  obtain ⟨n, rest, rfl, hrest, hroot⟩ := h.front
  refine ⟨?_, n, rest ++ [e], List.append_assoc _ _ _, ?_, hroot⟩
  · intro x hx
    rcases List.mem_append.mp hx with hx | hx
    · exact h.plain x hx
    · rw [List.mem_singleton.mp hx]
      exact hplain
  · intro hmem
    rcases List.mem_append.mp hmem with hmem | hmem
    · exact hrest hmem
    · exact hne (List.mem_singleton.mp hmem).symm

theorem Normal.snoc_dots (h : Normal sep dot false es) (hall : ∀ x ∈ es, x = [dot, dot])
    (hsep : sep ≠ dot) : Normal sep dot false (es ++ [[dot, dot]]) := by
  refine ⟨?_, es.length + 1, [], ?_, List.not_mem_nil, nofun⟩
  · intro x hx
    rcases List.mem_append.mp hx with hx | hx
    · exact h.plain x hx
    · rw [List.mem_singleton.mp hx]
      exact ⟨nofun, nofun, by simp [hsep]⟩
  · rw [List.append_nil, List.replicate_succ', ← List.eq_replicate_of_mem hall]

theorem Normal.head?_intercalate (h : Normal sep dot rooted es) :
    ([sep].intercalate es).head? ≠ some sep := by
  cases es with
  | nil => simp
  | cons e es =>
    obtain ⟨hne, -, hsep⟩ := h.plain e List.mem_cons_self
    cases e with
    | nil => exact absurd rfl hne
    | cons a e =>
      have hhead : ([sep].intercalate ((a :: e) :: es)).head? = some a := by
        cases es with
        | nil => rw [List.intercalate_singleton, List.head?_cons]
        | cons e' es => rw [List.intercalate_cons_cons, List.append_assoc, List.cons_append, List.head?_cons]
      rw [hhead]
      rintro heq
      exact hsep (Option.some.inj heq ▸ List.mem_cons_self)

theorem intercalate_concat (hne : es ≠ []) :
    [sep].intercalate (es ++ [e]) = [sep].intercalate es ++ sep :: e := by
  induction es with
  | nil => exact absurd rfl hne
  | cons x es ih =>
    cases es with
    | nil => simp [List.intercalate_cons_cons]
    | cons y es =>
      have hrest := ih (List.cons_ne_nil y es)
      rw [List.cons_append, List.cons_append, List.intercalate_cons_cons, List.intercalate_cons_cons,
        ← List.cons_append, hrest]
      simp only [List.append_assoc]

/-- A path of at least one element, but for a single one that is not rooted, has a separator before
    its last element. -/
theorem render_concat (hne : rooted = true ∨ es ≠ []) :
    render sep dot rooted (es ++ [e]) = (if es = [] then [] else render sep dot rooted es) ++ sep :: e := by
  have hfull : es ++ [e] ≠ [] := List.append_ne_nil_of_right_ne_nil _ nofun
  by_cases hes : es = []
  · subst hes
    have hroot : rooted = true := hne.resolve_right (not_not.mpr rfl)
    rw [hroot, render, if_pos rfl, if_pos rfl]
    simp
  · rw [if_neg hes, render, render, if_neg hfull, if_neg hes, intercalate_concat hes]
    split_ifs <;> rfl

variable [DecidableEq α] {kept : List (List α)}

theorem cleanStep_skip (h : e = [] ∨ e = [dot]) : cleanStep dot rooted kept e = kept := if_pos h

theorem cleanStep_dots_nil : cleanStep dot rooted [] [dot, dot] = if rooted then [] else [[dot, dot]] := by
  simp [cleanStep]

theorem cleanStep_dots_cons {top : List α} {rest : List (List α)} :
    cleanStep dot rooted (top :: rest) [dot, dot] =
      if top = [dot, dot] then [dot, dot] :: top :: rest else rest := by
  simp [cleanStep]

theorem cleanStep_push (h : ¬ (e = [] ∨ e = [dot])) (hdots : e ≠ [dot, dot]) :
    cleanStep dot rooted kept e = e :: kept := by
  unfold cleanStep
  rw [if_neg h, if_neg hdots]

/-- A step keeps the elements normal. -/
theorem Normal.cleanStep (h : Normal sep dot rooted kept.reverse) (he : sep ∉ e) (hsep : sep ≠ dot) :
    Normal sep dot rooted (cleanStep dot rooted kept e).reverse := by
  by_cases hskip : e = [] ∨ e = [dot]
  · rw [cleanStep_skip hskip]
    exact h
  by_cases hdots : e = [dot, dot]
  · subst hdots
    cases kept with
    | nil =>
      rw [cleanStep_dots_nil]
      cases rooted with
      | true => exact Normal.nil
      | false => exact Normal.nil.snoc_dots nofun hsep
    | cons top rest =>
      rw [List.reverse_cons] at h
      rw [cleanStep_dots_cons]
      split_ifs with htop
      · subst htop
        obtain ⟨rfl, hall⟩ := h.of_concat_dots
        rw [List.reverse_cons, List.reverse_cons]
        refine h.snoc_dots (fun x hx => ?_) hsep
        rcases List.mem_append.mp hx with hx | hx
        · exact hall x hx
        · exact List.mem_singleton.mp hx
      · exact h.of_concat
  · rw [cleanStep_push hskip hdots, List.reverse_cons]
    exact h.snoc ⟨fun hnil => hskip (Or.inl hnil), fun hdot => hskip (Or.inr hdot), he⟩ hdots

theorem sep_notMem_of_mem_splitOn (h : e ∈ p.splitOn sep) : sep ∉ e := by
  induction p generalizing e with
  | nil =>
    rw [List.splitOn_nil, List.mem_singleton] at h
    rw [h]
    exact List.not_mem_nil
  | cons a p ih =>
    rw [List.splitOn_cons_eq_if_modifyHead] at h
    split_ifs at h with ha
    · rcases List.mem_cons.mp h with rfl | h
      · exact List.not_mem_nil
      · exact ih h
    · cases hsplit : p.splitOn sep with
      | nil => exact absurd hsplit (List.splitOn_ne_nil _ _)
      | cons x l =>
        rw [hsplit, List.modifyHead_cons] at h
        rw [hsplit] at ih
        rcases List.mem_cons.mp h with rfl | h
        · have hne : sep ≠ a := fun heq => ha (beq_iff_eq.mpr heq.symm)
          exact List.not_mem_cons_of_ne_of_not_mem hne (ih List.mem_cons_self)
        · exact ih (List.mem_cons_of_mem _ h)

theorem normal_cleaned (hsep : sep ≠ dot) (p : List α) :
    Normal sep dot (isRooted sep p) (cleaned sep dot p) := by
  have hfold : ∀ (l : List (List α)) (kept : List (List α)), (∀ e ∈ l, sep ∉ e) →
      Normal sep dot (isRooted sep p) kept.reverse →
      Normal sep dot (isRooted sep p) (l.foldl (Lib.cleanStep dot (isRooted sep p)) kept).reverse := by
    intro l
    induction l with
    | nil => exact fun _ _ h => h
    | cons e l ih =>
      intro kept hl h
      rw [List.foldl_cons]
      exact ih _ (fun x hx => hl x (List.mem_cons_of_mem _ hx))
        (h.cleanStep (hl e List.mem_cons_self) hsep)
  exact hfold _ [] (fun e he => sep_notMem_of_mem_splitOn he) Normal.nil

/-! ## 3. Reading back -/

/-- Nothing is dropped from a normal list. -/
theorem Normal.foldl (h : Normal sep dot rooted es) :
    es.foldl (Lib.cleanStep dot rooted) [] = es.reverse := by
  induction es using List.reverseRecOn with
  | nil => rfl
  | append_singleton es e ih =>
    obtain ⟨hne, hdot, -⟩ := h.plain e (List.mem_append_right _ (List.mem_singleton_self e))
    rw [List.foldl_append, ih h.of_concat, List.reverse_append, List.foldl_cons, List.foldl_nil,
      List.reverse_singleton, List.singleton_append]
    by_cases hdots : e = [dot, dot]
    · subst hdots
      obtain ⟨rfl, hall⟩ := h.of_concat_dots
      cases hrev : es.reverse with
      | nil => exact cleanStep_dots_nil
      | cons top rest =>
        have htop : top ∈ es := List.mem_reverse.mp (hrev ▸ List.mem_cons_self)
        rw [cleanStep_dots_cons, if_pos (hall top htop)]
    · exact cleanStep_push (not_or.mpr ⟨hne, hdot⟩) hdots

/-- The elements that cleaning skips do not count. -/
def counted (dot : α) (es : List (List α)) : List (List α) := es.filter fun e => ¬ (e = [] ∨ e = [dot])

theorem cleaned_eq (h : Normal sep dot (isRooted sep p) es) (hes : counted dot (p.splitOn sep) = es) :
    cleaned sep dot p = es := by
  have hskip : ∀ (l : List (List α)) (kept : List (List α)),
      l.foldl (Lib.cleanStep dot (isRooted sep p)) kept =
        (counted dot l).foldl (Lib.cleanStep dot (isRooted sep p)) kept := by
    intro l
    induction l with
    | nil => exact fun _ => rfl
    | cons e l ih =>
      intro kept
      by_cases he : e = [] ∨ e = [dot]
      · rw [List.foldl_cons, counted, List.filter_cons_of_neg (by simp [he]), ← counted, ← ih,
          cleanStep_skip he]
      · rw [List.foldl_cons, counted, List.filter_cons_of_pos (by simp [he]), ← counted, List.foldl_cons, ih]
  rw [cleaned, hskip, hes, h.foldl, List.reverse_reverse]

theorem Normal.counted (h : Normal sep dot rooted es) :
    Lib.counted dot (([sep].intercalate es).splitOn sep) = es := by
  by_cases hne : es = []
  · rw [hne, List.intercalate_nil, List.splitOn_nil]
    simp [Lib.counted]
  · rw [List.splitOn_intercalate sep (fun e he => (h.plain e he).2.2) hne]
    refine List.filter_eq_self.mpr fun e he => decide_eq_true ?_
    exact not_or.mpr ⟨(h.plain e he).1, (h.plain e he).2.1⟩

theorem counted_append_sep (p q : List α) :
    counted dot ((p ++ sep :: q).splitOn sep) = counted dot (p.splitOn sep) ++ counted dot (q.splitOn sep) := by
  rw [List.splitOn_append_cons_self, counted, List.filter_append, ← counted, ← counted]

theorem counted_nil : counted dot (([] : List α).splitOn sep) = [] := by
  rw [List.splitOn_nil]
  simp [counted]

theorem Normal.counted_render (h : Normal sep dot rooted es) (hsep : sep ≠ dot) :
    Lib.counted dot ((render sep dot rooted es).splitOn sep) = es := by
  cases rooted with
  | true =>
    have happend : render sep dot true es = [] ++ sep :: [sep].intercalate es := rfl
    rw [happend, counted_append_sep, counted_nil, h.counted, List.nil_append]
  | false =>
    by_cases hne : es = []
    · subst hne
      have hdot : ([dot] : List α).splitOn sep = [[dot]] :=
        List.splitOn_eq_singleton (by simpa using hsep)
      rw [render, if_neg Bool.false_ne_true, if_pos rfl, hdot]
      simp [Lib.counted]
    · rw [render, if_neg Bool.false_ne_true, if_neg hne, h.counted]

theorem Normal.isRooted_render (h : Normal sep dot rooted es) (hsep : sep ≠ dot) (q : List α) :
    isRooted sep (render sep dot rooted es ++ q) = rooted := by
  cases rooted with
  | true => simp [render, isRooted]
  | false =>
    by_cases hne : es = []
    · subst hne
      simp [render, isRooted, hsep.symm]
    · have hhead := h.head?_intercalate
      have hfull : [sep].intercalate es ≠ [] := by
        intro hnil
        have := h.counted
        rw [hnil, counted_nil] at this
        exact hne this.symm
      rw [render, if_neg Bool.false_ne_true, if_neg hne, isRooted, List.head?_append_of_ne_nil _ hfull]
      exact beq_eq_false_iff_ne.mpr hhead

/-- The written form of a normal list has its elements, -/
theorem Normal.cleaned_render (h : Normal sep dot rooted es) (hsep : sep ≠ dot) :
    cleaned sep dot (render sep dot rooted es) = es := by
  have hroot := h.isRooted_render hsep []
  rw [List.append_nil] at hroot
  exact cleaned_eq (hroot.symm ▸ h) (h.counted_render hsep)

/-- with or without a separator at its end. -/
theorem Normal.cleaned_render_sep (h : Normal sep dot rooted es) (hsep : sep ≠ dot) :
    cleaned sep dot (render sep dot rooted es ++ [sep]) = es := by
  refine cleaned_eq ((h.isRooted_render hsep [sep]).symm ▸ h) ?_
  rw [counted_append_sep, h.counted_render hsep, counted_nil, List.append_nil]

/-- Cleaning a second time changes nothing. -/
theorem cleaned_clean (hsep : sep ≠ dot) (p : List α) :
    cleaned sep dot (clean sep dot p) = cleaned sep dot p :=
  (normal_cleaned hsep p).cleaned_render hsep

end Btrfs.Lib
