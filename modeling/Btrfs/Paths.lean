/-
  Btrfs/Paths.lean
  ================
  **Path strings** — from what a caller passes to the names that are looked up.

  The calls clean their argument and cut it before its last element, some with
  `path.Split` and some with the driver's own `splitPath`; `pathLookup` cleans what it gets
  once more and follows the elements.  Both cuts give the same directory and the same
  name.  Of `/` the name is empty, of the empty string and of `.` it is `.`, and of a path
  that leads out of the root it may be `..`.
-/
import Btrfs.FileOps
import Btrfs.Lib.CleanPath

namespace Btrfs

open Lib

/-! ## 1. The functions of the source -/

def slash : UInt8 := 0x2F

def dotByte : UInt8 := 0x2E

theorem slash_ne_dotByte : slash ≠ dotByte := by decide

/-- `path.Clean`. -/
def pathClean (p : Bytes) : Bytes := clean slash dotByte p

/-- `path.Split`: up to the last slash, and behind it. -/
def pathSplit (p : Bytes) : Bytes × Bytes := (p.rdropWhile (· ≠ slash), p.rtakeWhile (· ≠ slash))

/-- The cut that `writeFile`, `makeDir` and `symlinkInode` make. -/
def dirAndName (p : Bytes) : Bytes × Bytes :=
  let (dir, name) := pathSplit (pathClean p)
  (pathClean (if dir = [] then [slash] else dir), name)

/-- `splitPath`, for `linkInode`, `renameEntry` and the deletions. -/
def splitPathString (p : Bytes) : Bytes × Bytes :=
  let p := pathClean p
  if p = [slash] then ([slash], [])
  else if slash ∈ p then
    let d := (p.rdropWhile (· ≠ slash)).dropLast
    (if d = [] then [slash] else d, p.rtakeWhile (· ≠ slash))
  else ([slash], p)

/-- The names that `pathLookup` follows. -/
def lookupNames (p : Bytes) : Path :=
  let p := pathClean p
  if p = [slash] ∨ p = [dotByte] then []
  else (if isRooted slash p then p.tail else p).splitOn slash

/-- The path of a new name, as the calls take it apart. -/
def newPath (p : Bytes) : Path :=
  lookupNames (splitPathString p).1 ++ [(splitPathString p).2]

/-! ## 2. Elements -/

variable {p : Bytes}

/-- The elements that cleaning leaves. -/
def pathElements (p : Bytes) : Path := cleaned slash dotByte p

theorem normal_pathElements (p : Bytes) :
    Normal slash dotByte (isRooted slash p) (pathElements p) := normal_cleaned slash_ne_dotByte p

theorem pathClean_eq (p : Bytes) :
    pathClean p = render slash dotByte (isRooted slash p) (pathElements p) := rfl

theorem isRooted_pathClean (p : Bytes) : isRooted slash (pathClean p) = isRooted slash p := by
  have hroot := (normal_pathElements p).isRooted_render slash_ne_dotByte []
  rw [List.append_nil] at hroot
  exact hroot

theorem pathElements_pathClean (p : Bytes) : pathElements (pathClean p) = pathElements p :=
  cleaned_clean slash_ne_dotByte p

theorem lookupNames_eq (p : Bytes) : lookupNames p = pathElements p := by
  by_cases hne : pathElements p = []
  · have hclean : pathClean p = [slash] ∨ pathClean p = [dotByte] := by
      rw [pathClean_eq, hne]
      cases isRooted slash p with
      | true => exact Or.inl rfl
      | false => exact Or.inr rfl
    rw [lookupNames, if_pos hclean, hne]
  · have hclean : ¬ (pathClean p = [slash] ∨ pathClean p = [dotByte]) := by
      have hagain := pathElements_pathClean p
      rintro (h | h) <;> rw [h] at hagain <;> exact hne (hagain.symm.trans (by decide))
    have hbody : (if isRooted slash (pathClean p) then (pathClean p).tail else pathClean p) =
        [slash].intercalate (pathElements p) := by
      rw [isRooted_pathClean, pathClean_eq]
      cases isRooted slash p with
      | true => rfl
      | false => exact if_neg hne
    rw [lookupNames, if_neg hclean, hbody]
    exact List.splitOn_intercalate slash (fun e he => ((normal_pathElements p).plain e he).2.2) hne

/-! ## 3. Cuts -/

section cuts

variable {l name : Bytes}

theorem rdropWhile_append_slash (h : slash ∉ name) :
    (l ++ slash :: name).rdropWhile (· ≠ slash) = l ++ [slash] := by
  induction name using List.reverseRecOn with
  | nil => exact List.rdropWhile_concat_neg _ _ _ (by simp)
  | append_singleton name x ih =>
    have hx : x ≠ slash := fun heq => h (heq ▸ List.mem_append_right _ (List.mem_singleton_self x))
    rw [← List.cons_append, ← List.append_assoc, List.rdropWhile_concat_pos _ _ _ (by simpa using hx)]
    exact ih fun hmem => h (List.mem_append_left _ hmem)

theorem rtakeWhile_append_slash (h : slash ∉ name) :
    (l ++ slash :: name).rtakeWhile (· ≠ slash) = name := by
  have hsplit : (l ++ slash :: name).rdropWhile (· ≠ slash) ++ (l ++ slash :: name).rtakeWhile (· ≠ slash) =
    l ++ slash :: name := List.rdropWhile_append_rtakeWhile
  rw [rdropWhile_append_slash h] at hsplit
  exact List.append_cancel_left (hsplit.trans (List.append_cons l slash name))

theorem pathSplit_append (h : slash ∉ name) : pathSplit (l ++ slash :: name) = (l ++ [slash], name) := by
  rw [pathSplit, rdropWhile_append_slash h, rtakeWhile_append_slash h]

theorem pathSplit_of_notMem (h : slash ∉ name) : pathSplit name = ([], name) := by
  have hall : ∀ c ∈ name, decide (c ≠ slash) = true := fun c hc =>
    decide_eq_true fun heq => h (heq ▸ hc)
  rw [pathSplit, List.rdropWhile_eq_nil_iff.mpr hall, List.rtakeWhile_eq_self_iff.mpr hall]

end cuts

variable {init : Path} {last : Name}

/-- A cleaned path in front of its last element. -/
theorem pathClean_of_concat (h : pathElements p = init ++ [last]) :
    (pathClean p = last ∧ init = []) ∨
      ∃ d, pathClean p = d ++ slash :: last ∧ (d = [] ∧ init = [] ∨ d ≠ [] ∧ pathElements d = init ∧
        pathElements (d ++ [slash]) = init) := by
  have hnormal := normal_pathElements p
  rw [h] at hnormal
  have hinit := hnormal.of_concat
  rw [pathClean_eq, h]
  by_cases hne : isRooted slash p = true ∨ init ≠ []
  · rw [render_concat hne]
    refine Or.inr ⟨_, rfl, ?_⟩
    split_ifs with hnil
    · exact Or.inl ⟨rfl, hnil⟩
    · refine Or.inr ⟨fun hempty => hnil ?_, hinit.cleaned_render slash_ne_dotByte,
        hinit.cleaned_render_sep slash_ne_dotByte⟩
      rw [← hinit.cleaned_render slash_ne_dotByte, hempty]
      decide
  · obtain ⟨hroot, hnil⟩ := not_or.mp hne
    rw [not_not] at hnil
    refine Or.inl ⟨?_, hnil⟩
    rw [hnil, render, if_neg hroot]
    simp

/-- The driver's cut is before the last element, -/
theorem splitPathString_of_concat (h : pathElements p = init ++ [last]) :
    lookupNames (splitPathString p).1 = init ∧ (splitPathString p).2 = last := by
  have hlast : slash ∉ last := by
    have hnormal := normal_pathElements p
    rw [h] at hnormal
    exact (hnormal.plain last (List.mem_append_right _ (List.mem_singleton_self last))).2.2
  have hroot : pathElements [slash] = [] := by decide
  have hslash : pathClean p ≠ [slash] := by
    intro heq
    rw [← pathElements_pathClean, heq, hroot] at h
    exact List.concat_ne_nil last init h.symm
  rw [lookupNames_eq, splitPathString, if_neg hslash]
  rcases pathClean_of_concat h with ⟨hclean, rfl⟩ | ⟨d, hclean, hd⟩
  · rw [hclean, if_neg hlast]
    exact ⟨hroot, rfl⟩
  · have hmem : slash ∈ d ++ slash :: last := List.mem_append_right _ List.mem_cons_self
    rw [hclean, if_pos hmem, rdropWhile_append_slash hlast, rtakeWhile_append_slash hlast,
      List.dropLast_concat]
    rcases hd with ⟨rfl, rfl⟩ | ⟨hne, helems, -⟩
    · exact ⟨hroot, rfl⟩
    · refine ⟨?_, rfl⟩
      dsimp only
      rw [if_neg hne, helems]

/-- and so is the one with `path.Split`. -/
theorem dirAndName_of_concat (h : pathElements p = init ++ [last]) :
    lookupNames (dirAndName p).1 = init ∧ (dirAndName p).2 = last := by
  have hlast : slash ∉ last := by
    have hnormal := normal_pathElements p
    rw [h] at hnormal
    exact (hnormal.plain last (List.mem_append_right _ (List.mem_singleton_self last))).2.2
  have hroot : pathElements [slash] = [] := by decide
  rw [lookupNames_eq, dirAndName]
  rcases pathClean_of_concat h with ⟨hclean, rfl⟩ | ⟨d, hclean, hd⟩
  · rw [hclean, pathSplit_of_notMem hlast]
    exact ⟨(pathElements_pathClean _).trans hroot, rfl⟩
  · rw [hclean, pathSplit_append hlast]
    refine ⟨(pathElements_pathClean _).trans ?_, rfl⟩
    rw [if_neg (List.append_ne_nil_of_right_ne_nil d (List.cons_ne_nil slash []))]
    rcases hd with ⟨rfl, rfl⟩ | ⟨-, -, helems⟩
    · exact hroot
    · exact helems

theorem newPath_of_concat (h : pathElements p = init ++ [last]) : newPath p = init ++ [last] := by
  obtain ⟨hdir, hname⟩ := splitPathString_of_concat h
  rw [newPath, hdir, hname]

theorem pathClean_of_nil (h : pathElements p = []) :
    pathClean p = if isRooted slash p then [slash] else [dotByte] := by
  rw [pathClean_eq, h]
  cases isRooted slash p <;> rfl

/-- Both cuts give the same names. -/
theorem dirAndName_agrees (p : Bytes) : lookupNames (dirAndName p).1 ++ [(dirAndName p).2] = newPath p := by
  rcases List.eq_nil_or_concat (pathElements p) with hnil | ⟨init, last, hconcat⟩
  · rw [newPath, dirAndName, splitPathString, pathClean_of_nil hnil]
    cases isRooted slash p <;> decide
  · rw [List.concat_eq_append] at hconcat
    obtain ⟨hdir, hname⟩ := dirAndName_of_concat hconcat
    rw [newPath_of_concat hconcat, hdir, hname]

end Btrfs
