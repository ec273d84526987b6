/-
  Btrfs/Confined.lean
  ===================
  **Where a step writes** — the keys of the items it can change.

  A step is confined to a set of keys when every item with another key stays as it is, in
  its place among the others, whether the step succeeds or fails.  Steps confined to one
  set follow one another, so that a call is confined to the keys its parts name.  All
  keys that any call names are of six types.
-/
import Btrfs.Calm

namespace Btrfs

open Lib

variable {s s' : MapFs} {P Q : Key → Prop} {ino parentIno : Nat} {now : Timespec}

/-! ## 1. Keys -/

/-- Items with keys outside of `P` stay as they are, and nodes keep their size. -/
structure Confined (P : Key → Prop) (s s' : MapFs) : Prop where
  kept : ∀ q : Key → Bool, (∀ k, q k = true → ¬ P k) → s'.records.keep q = s.records.keep q
  nodeSize : s'.sb.nodeSize = s.sb.nodeSize

instance : IsPreorder MapFs (Confined P) where
  refl _ := ⟨fun _ _ => rfl, rfl⟩
  trans _ _ _ h h' := ⟨fun q hq => (h'.kept q hq).trans (h.kept q hq), h'.nodeSize.trans h.nodeSize⟩

theorem Confined.of_frame (h : s'.sb = s.sb ∧ s'.records = s.records) : Confined P s s' := by
  refine ⟨fun q _ => ?_, ?_⟩
  · rw [h.2]
  · rw [h.1]

theorem Confined.mem (h : Confined P s s') {e : Key × Bytes} (he : ¬ P e.1) :
    e ∈ s'.records.list ↔ e ∈ s.records.list := by
  have hkeep := h.kept (fun k => decide (k = e.1)) fun k hk hP => he (of_decide_eq_true hk ▸ hP)
  have hmem : ∀ r : Records Key Bytes, e ∈ r.keep (fun k => decide (k = e.1)) ↔ e ∈ r.list := by
    intro r
    rw [Records.keep, List.mem_filter]
    simp
  rw [← hmem, ← hmem, hkeep]

/-! ## 2. Tree operations -/

theorem confined_mapOp {f : Superblock → Records Key Bytes → Except Err (Records Key Bytes)}
    (hf : ∀ sb r r', f sb r = .ok r' → ∀ q : Key → Bool, (∀ k, q k = true → ¬ P k) →
      r'.keep q = r.keep q) : Always (Confined P) (mapOp f) := by
  intro s
  cases hrun : mapOp f s with
  | ok u s' =>
    obtain ⟨hsb, hrec⟩ := mapOp_effect hrun
    exact ⟨hf _ _ _ hrec, congrArg Superblock.nodeSize hsb⟩
  | error e s' => exact Confined.of_frame (mapOp_error_effect hrun)

section ops

variable {k : Key} {d : Bytes}

theorem confined_insert (hk : P k) : Always (Confined P) (mapBackend.cowInsert k d) := by
  change Always (Confined P) (mapInsert k d)
  unfold mapInsert
  refine confined_mapOp fun sb r r' hf q hq => ?_
  split_ifs at hf
  rw [← Except.ok.inj hf]
  exact Records.keep_insert_of_false (Bool.eq_false_iff.mpr fun hqk => hq k hqk hk)

theorem confined_update (hk : P k) : Always (Confined P) (mapBackend.cowUpdate k d) := by
  change Always (Confined P) (mapUpdate k d)
  unfold mapUpdate
  refine confined_mapOp fun sb r r' hf q hq => ?_
  split_ifs at hf
  rw [← Except.ok.inj hf]
  exact Records.keep_update_of_false (Bool.eq_false_iff.mpr fun hqk => hq k hqk hk)

theorem confined_delete (hk : P k) : Always (Confined P) (mapBackend.cowDelete k) := by
  change Always (Confined P) (mapDelete k)
  unfold mapDelete
  refine confined_mapOp fun sb r r' hf q hq => ?_
  split_ifs at hf
  rw [← Except.ok.inj hf]
  exact Records.keep_erase_of_false (Bool.eq_false_iff.mpr fun hqk => hq k hqk hk)

theorem confined_deletePrefix {objID typ : Nat} (hk : ∀ off, P ⟨objID, typ, off⟩) :
    Always (Confined P) (mapBackend.cowDeletePrefix objID typ) := by
  change Always (Confined P) (mapDeletePrefix objID typ)
  unfold mapDeletePrefix
  refine confined_mapOp fun sb r r' hf q hq => ?_
  rw [← Except.ok.inj hf]
  refine Records.keep_removeAll fun k hqk => ?_
  rw [inPrefix, decide_eq_false_iff_not]
  rintro ⟨rfl, rfl⟩
  exact hq k hqk (hk k.offset)

theorem confined_commit : Always (Confined P) mapBackend.updateFsTreeRoot := by
  intro s
  have hframe := traffic_frame s
  change Confined P s (final (mapCommit s))
  simp only [mapCommit]
  cases ht : traffic s with
  | error e t => rw [ht] at hframe; exact Confined.of_frame hframe
  | ok u t =>
    -- the commit itself changes the generation only
    rw [ht] at hframe
    exact ⟨(Confined.of_frame hframe).kept, (Confined.of_frame (P := P) hframe).nodeSize⟩

end ops

theorem respects_confined : Respects (Confined P) P :=
  ⟨confined_insert, confined_update, confined_delete, confined_deletePrefix, confined_commit⟩

theorem confined_setVol (s : MapFs) (v : Vol) : Confined P s (mapBackend.setVol v s) :=
  Confined.of_frame ⟨rfl, rfl⟩

/-! ## 3. Calls and runs -/

/-- A call that succeeds has written items of known types only, and left the size of the nodes. -/
theorem confined_call {c : Call} (hrun : c.run mapBackend now s = .ok () s') :
    Confined Written s s' :=
  Respects.call confined_setVol respects_confined (fun _ => id) hrun

/-- Along any run of calls all items are of known types, and the nodes keep their size. -/
theorem Reachable.written {cond : Call → MapFs → Prop} {s₀ : MapFs} (hreach : Reachable cond s₀ s)
    (h : ∀ e ∈ s₀.records.list, Written e.1) :
    (∀ e ∈ s.records.list, Written e.1) ∧ s.sb.nodeSize = s₀.sb.nodeSize := by
  induction hreach with
  | refl => exact ⟨h, rfl⟩
  | tail _ hstep ih =>
    obtain ⟨c, now, script, -, hrun⟩ := hstep
    have hconf := confined_call hrun
    refine ⟨fun e he => ?_, hconf.nodeSize.trans ih.2⟩
    by_contra hnot
    exact hnot (ih.1 e ((hconf.mem hnot).mp he))

end Btrfs
