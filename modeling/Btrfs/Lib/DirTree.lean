/-
  Btrfs/Lib/DirTree.lean
  ======================
  **Trees given by their edges** — labelled edges, at most one into every node.

  The labels on the way from the root to a node are determined by the node, so that a node
  below another has the labels of that one as a prefix.  Edges without cycles are those
  along which some rank increases; an edge whose target is moved to a node that does not
  lie below it leaves a set without cycles.
-/
import Mathlib

namespace Btrfs.Lib

variable {ε ν ι : Type*} {src dst : ε → ν} {label : ε → ι} {E : Set ε} {root : ν}

/-- The second node is the first, or can be reached from it. -/
def Below (src dst : ε → ν) (E : Set ε) : ν → ν → Prop :=
  Relation.ReflTransGen fun a b => ∃ e ∈ E, src e = a ∧ dst e = b

theorem Below.mono {E' : Set ε} {a b : ν} (h : Below src dst E a b) (hsub : E ⊆ E') :
    Below src dst E' a b := by
  refine Relation.ReflTransGen.mono ?_ a b h
  rintro x y ⟨e, he, hstep⟩
  exact ⟨e, hsub he, hstep⟩

/-- The rank increases along every edge. -/
def Ranked (src dst : ε → ν) (E : Set ε) (rank : ν → Nat) : Prop :=
  ∀ e ∈ E, rank (src e) < rank (dst e)

theorem Ranked.le_of_below {rank : ν → Nat} {a b : ν} (h : Ranked src dst E rank)
    (hbelow : Below src dst E a b) : rank a ≤ rank b := by
  induction hbelow with
  | refl => exact le_rfl
  | tail _ hstep ih =>
    obtain ⟨e, he, rfl, rfl⟩ := hstep
    exact ih.trans (h e he).le

/-- At most one edge leads to a node. -/
def OneParent (dst : ε → ν) (E : Set ε) : Prop := ∀ e ∈ E, ∀ e' ∈ E, dst e = dst e' → e = e'

/-- A way from the root, with the labels of its edges. -/
inductive Way (src dst : ε → ν) (label : ε → ι) (E : Set ε) (root : ν) : List ι → ν → Prop
  | nil : Way src dst label E root [] root
  | snoc {p : List ι} {e : ε} (h : Way src dst label E root p (src e)) (he : e ∈ E) :
      Way src dst label E root (p ++ [label e]) (dst e)

theorem Way.mono {E' : Set ε} (hsub : E ⊆ E') {p : List ι} {x : ν}
    (h : Way src dst label E root p x) : Way src dst label E' root p x := by
  induction h with
  | nil => exact Way.nil
  | snoc _ he ih => exact Way.snoc ih (hsub he)

/-- The last edge of a way. -/
theorem Way.of_concat {p : List ι} {a : ι} {x : ν} (h : Way src dst label E root (p ++ [a]) x) :
    ∃ e ∈ E, Way src dst label E root p (src e) ∧ label e = a ∧ dst e = x := by
  generalize hq : p ++ [a] = q at h
  cases h with
  | nil => exact absurd hq (List.concat_ne_nil a p)
  | @snoc p' e h he =>
    obtain ⟨rfl, hlabel⟩ := List.append_inj' hq rfl
    exact ⟨e, he, h, (List.singleton_inj.mp hlabel).symm, rfl⟩

section ways

variable (hone : OneParent dst E) (hroot : ∀ e ∈ E, dst e ≠ root)
include hone hroot

/-- One way leads to a node. -/
theorem Way.unique {p q : List ι} {x : ν} (hp : Way src dst label E root p x)
    (hq : Way src dst label E root q x) : p = q := by
  induction hp generalizing q with
  | nil =>
    cases hq with
    | nil => rfl
    | snoc _ he => exact absurd rfl (hroot _ he)
  | snoc _ he ih =>
    generalize hx : dst _ = x at hq
    cases hq with
    | nil => exact absurd hx (hroot _ he)
    | snoc hq' he' =>
      obtain rfl := hone _ he _ he' hx
      rw [ih hq']

/-- The way to a node goes on below it. -/
theorem Way.isPrefix_of_below {p q : List ι} {a x : ν} (hp : Way src dst label E root p a)
    (hbelow : Below src dst E a x) (hq : Way src dst label E root q x) : p <+: q := by
  induction hbelow generalizing q with
  | refl =>
    exact hp.unique hone hroot hq ▸ List.prefix_rfl
  | tail _ hstep ih =>
    obtain ⟨e, he, rfl, rfl⟩ := hstep
    generalize hx : dst e = x at hq
    cases hq with
    | nil => exact absurd hx (hroot _ he)
    | snoc hq' he' =>
      obtain rfl := hone _ he _ he' hx
      exact (ih hq').trans (List.prefix_append _ _)

end ways

/-- The edge to a node is replaced by one from a node that does not lie below it: the nodes below
    get ranks above that of the new source. -/
theorem Ranked.move {rank : ν → Nat} {e e' : ε} (h : Ranked src dst E rank) (hone : OneParent dst E)
    (he : e ∈ E) (hdst : dst e' = dst e) (hnot : ¬ Below src dst E (dst e) (src e')) :
    ∃ rank', Ranked src dst (insert e' (E \ {e})) rank' := by
  classical
  let rank' := fun x => if Below src dst E (dst e) x then rank x + rank (src e') + 1 else rank x
  have hin : ∀ x, Below src dst E (dst e) x → rank' x = rank x + rank (src e') + 1 :=
    fun x hx => if_pos hx
  have hout : ∀ x, ¬ Below src dst E (dst e) x → rank' x = rank x := fun x hx => if_neg hx
  refine ⟨rank', ?_⟩
  rintro x (rfl | ⟨hx, hne⟩)
  · rw [hout _ hnot, hin _ (by rw [hdst]; exact Relation.ReflTransGen.refl)]
    omega
  · have hlt := h x hx
    by_cases hsrc : Below src dst E (dst e) (src x)
    · rw [hin _ hsrc, hin _ (hsrc.tail ⟨x, hx, rfl, rfl⟩)]
      omega
    · -- the only edge into the part below is the one taken away
      have hbelow : ¬ Below src dst E (dst e) (dst x) := by
        intro hcontra
        rcases Relation.ReflTransGen.cases_tail hcontra with heq | ⟨y, hy, y', hy', rfl, heq⟩
        · exact hne (hone x hx e he heq)
        · exact hsrc ((hone y' hy' x hx heq) ▸ hy)
      rw [hout _ hsrc, hout _ hbelow]
      exact hlt

end Btrfs.Lib
