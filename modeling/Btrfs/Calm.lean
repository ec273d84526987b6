/-
  Btrfs/Calm.lean
  ===============
  **Calm steps** — what a step leaves alone, whether it succeeds or fails.

  A call is a sequence of tree operations, and each of them concerns items of one type.
  A step that touches no item of some types leaves all of them as they are, and makes
  traffic at most.  Unlike the triples of `Intact.lean` this says something about a step
  that fails, too, and it asks for nothing but order among the node blocks.
-/
import Btrfs.StepRules

namespace Btrfs

open Lib

variable {s s' s₁ : MapFs} {ino parentIno : Nat} {now : Timespec} {S : List Nat}

/-! ## 1. Items of some types -/

/-- The items of some types. -/
def MapFs.ofTypes (S : List Nat) (s : MapFs) : List (Key × Bytes) :=
  s.records.keep fun k => decide (k.typ ∈ S)

/-- Traffic, and changes of items of other types. -/
structure Calm (S : List Nat) (s s' : MapFs) : Prop where
  churned : SpaceOk s → Churned s s'
  kept : s'.ofTypes S = s.ofTypes S

instance : IsPreorder MapFs (Calm S) where
  refl s := ⟨Churned.refl, rfl⟩
  trans s₁ s₂ s₃ h h' := by
    refine ⟨fun hs => ?_, h'.kept.trans h.kept⟩
    exact (h.churned hs).trans (h'.churned (h.churned hs).ok)

/-! ## 2. Tree operations -/

/-- A tree operation that changes no item of the types. -/
theorem calm_mapOp {f : Superblock → Records Key Bytes → Except Err (Records Key Bytes)}
    (hf : ∀ sb r r', f sb r = .ok r' →
      r'.keep (fun k => decide (k.typ ∈ S)) = r.keep fun k => decide (k.typ ∈ S)) :
    Always (Calm S) (mapOp f) := by
  intro s
  cases hrun : mapOp f s with
  | ok u s' =>
    refine ⟨fun hs => (mapOp_ok hs hrun).1, ?_⟩
    exact hf _ _ _ (mapOp_effect hrun).2
  | error e s' =>
    refine ⟨fun hs => (mapOp_error hs hrun).1, ?_⟩
    rw [final_error, MapFs.ofTypes, (mapOp_error_effect hrun).2]
    rfl

section ops

variable {k : Key} {d : Bytes}

theorem calm_insert (hk : k.typ ∉ S) : Always (Calm S) (mapBackend.cowInsert k d) := by
  change Always (Calm S) (mapInsert k d)
  unfold mapInsert
  refine calm_mapOp fun sb r r' hf => ?_
  by_cases hfit : fitsLeaf sb d = true
  · rw [if_pos hfit, Except.ok.injEq] at hf
    rw [← hf]
    exact Records.keep_insert_of_false (decide_eq_false hk)
  · rw [if_neg hfit] at hf
    cases hf

theorem calm_update (hk : k.typ ∉ S) : Always (Calm S) (mapBackend.cowUpdate k d) := by
  change Always (Calm S) (mapUpdate k d)
  unfold mapUpdate
  refine calm_mapOp fun sb r r' hf => ?_
  by_cases hnone : (r.find? k).isNone = true
  · rw [if_pos hnone] at hf
    cases hf
  rw [if_neg hnone] at hf
  by_cases hfit : fitsLeaf sb d = true
  · rw [if_pos hfit, Except.ok.injEq] at hf
    rw [← hf]
    exact Records.keep_update_of_false (decide_eq_false hk)
  · rw [if_neg hfit] at hf
    cases hf

theorem calm_delete (hk : k.typ ∉ S) : Always (Calm S) (mapBackend.cowDelete k) := by
  change Always (Calm S) (mapDelete k)
  unfold mapDelete
  refine calm_mapOp fun sb r r' hf => ?_
  by_cases hnone : (r.find? k).isNone = true
  · rw [if_pos hnone] at hf
    cases hf
  · rw [if_neg hnone, Except.ok.injEq] at hf
    rw [← hf]
    exact Records.keep_erase_of_false (decide_eq_false hk)

theorem calm_deletePrefix {objID typ : Nat} (hk : typ ∉ S) :
    Always (Calm S) (mapBackend.cowDeletePrefix objID typ) := by
  change Always (Calm S) (mapDeletePrefix objID typ)
  unfold mapDeletePrefix
  refine calm_mapOp fun sb r r' hf => ?_
  rw [Except.ok.injEq] at hf
  rw [← hf]
  refine Records.keep_removeAll ?_
  intro k hin
  rw [decide_eq_true_eq] at hin
  simp only [inPrefix, decide_eq_false_iff_not, not_and]
  exact fun _ htyp => hk (htyp ▸ hin)

theorem calm_commit : Always (Calm S) mapBackend.updateFsTreeRoot := by
  intro s
  refine ⟨fun hs => (churned_commit hs).1, ?_⟩
  have hrec : (final (mapCommit s)).records = s.records := by
    have hframe := traffic_frame s
    simp only [mapCommit]
    cases ht : traffic s with
    | error e t => rw [ht] at hframe; exact hframe.2
    | ok u t => rw [ht] at hframe; exact hframe.2
  exact congrArg (fun r => r.keep fun k => decide (k.typ ∈ S)) hrec

end ops

/-- The keys of items of other types. -/
def Other (S : List Nat) (k : Key) : Prop := k.typ ∉ S

theorem Other.of {obj typ off : Nat} (h : typ ∉ S) : Other S ⟨obj, typ, off⟩ := h

theorem respects_calm : Respects (Calm S) (Other S) :=
  ⟨calm_insert, calm_update, calm_delete, fun hk => calm_deletePrefix (hk 0), calm_commit⟩

end Btrfs
