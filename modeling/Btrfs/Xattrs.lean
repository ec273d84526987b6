/-
  Btrfs/Xattrs.lean
  =================
  **Extended attributes as a map from names to values.**

  The item of an attribute is found by the hash of its name, and nothing but the hash.
  Setting an attribute replaces whatever stands under the hash, and removing one takes it
  away, without a look at the name that is stored there; only the read compares names.
  So the attributes of an inode follow the map of the names that were set as long as no
  call meets the hash of another name, and no longer.
-/
import Btrfs.Listing

namespace Btrfs

open Lib

variable {s s' : MapFs} {ino : Nat} {now : Timespec} {p : Path}

/-! ## 1. Items -/

section items

variable {name : Name} {value : Bytes}

end items

/-! ## 2. Calls -/

/-- Set or remove an attribute. -/
inductive XattrOp
  | set (name : Name) (value : Bytes)
  | remove (name : Name)

namespace XattrOp

def name : XattrOp → Name
  | .set name _ | .remove name => name

/-- The value the attribute is left with. -/
def value : XattrOp → Option Bytes
  | .set _ value => some value
  | .remove _ => none

def call (p : Path) : XattrOp → Call
  | .set name value => .setXattr p name value
  | .remove name => .removeXattr p name

def apply (op : XattrOp) (m : Name → Option Bytes) : Name → Option Bytes :=
  Function.update m op.name op.value

/-- The item that is left under the hash. -/
def item (op : XattrOp) : Option Bytes := op.value.map (encodeXattrItemPayload op.name)

end XattrOp

variable {op : XattrOp} {name : Name} {value : Bytes}

def xattrKey (ino : Nat) (name : Name) : Key := ⟨ino, typeXattrItem, hashDirName name⟩

/-- What a call leaves of the attributes of inode `ino`, and that paths lead where they did. -/
structure XattrStep (op : XattrOp) (ino : Nat) (s s' : MapFs) : Prop where
  nodeSize : s'.sb.nodeSize = s.sb.nodeSize
  lookup : ∀ p, pathLookup mapBackend s' p = pathLookup mapBackend s p
  distinct : ∀ n, s.records.Distinct (inPrefix n typeXattrItem) →
    s'.records.Distinct (inPrefix n typeXattrItem)
  item : s.records.Distinct (inPrefix ino typeXattrItem) →
    s'.records.find? (xattrKey ino op.name) = op.item
  other : ∀ k, k.typ = typeXattrItem → k ≠ xattrKey ino op.name →
    s'.records.find? k = s.records.find? k
  fits : s.sb.nodeSize ≤ maxNodeSize → ∀ v ∈ op.value,
    op.name.length < 2 ^ 16 ∧ v.length < 2 ^ 16

/-- Stamping an inode changes its INODE_ITEM, but for the lookups not even that. -/
theorem XattrStep.stamp {s₁ : MapFs} {i : InodeItem} (h : XattrStep op ino s s₁)
    (hread : readInode mapBackend s₁ i.num = .ok i)
    (hrun : updateInodeMetadata mapBackend now i.num (fun _ d => d) s₁ = .ok () s') :
    XattrStep op ino s s' := by
  obtain ⟨hsize, ⟨d, hsame⟩, hread'⟩ := updateInodeMetadata_effect (editsTo_id i.num) rfl hread hrun
  have hother : ∀ k, k.typ = typeXattrItem → s'.records.find? k = s₁.records.find? k := by
    intro k hk
    rw [hsame, Records.find?_update_of_ne]
    rintro rfl
    exact absurd hk (by decide : typeInodeItem ≠ _)
  have hreads : ∀ n, readInode mapBackend s' n = readInode mapBackend s₁ n := by
    intro n
    by_cases hn : n = i.num
    · rw [hn, hread, hread', id]
    · refine readInode_congr ?_
      rw [hsame, Records.find?_update_of_ne]
      rintro ⟨⟩
      exact hn rfl
  refine ⟨hsize.trans h.nodeSize, fun p => ?_, fun n hn => ?_, fun hn => ?_,
    fun k hk hne => ?_, h.fits⟩
  · refine (pathLookup_congr ?_ hreads p).trans (h.lookup p)
    rw [hsame]
    exact SameEntries.update (by decide : typeInodeItem ≠ _) (by decide : typeInodeItem ≠ _)
  · rw [hsame]
    exact (h.distinct n hn).update
  · rw [hother _ rfl]
    exact h.item hn
  · rw [hother k hk, h.other k hk hne]

variable {m : Name → Option Bytes}

/-- The XATTR_ITEMs of inode `ino` are those of the map, each under the hash of its name. -/
structure XattrMap (s : MapFs) (ino : Nat) (m : Name → Option Bytes) : Prop where
  distinct : s.records.Distinct (inPrefix ino typeXattrItem)
  stored : ∀ h d, s.records.find? ⟨ino, typeXattrItem, h⟩ = some d ↔
    ∃ n v, m n = some v ∧ hashDirName n = h ∧ encodeXattrItemPayload n v = d
  fits : ∀ n v, m n = some v → n.length < 2 ^ 16 ∧ v.length < 2 ^ 16

/-- No other name of the map has the hash of this one. -/
def HashFree (m : Name → Option Bytes) (name : Name) : Prop :=
  ∀ n, m n ≠ none → hashDirName n = hashDirName name → n = name

namespace XattrMap

theorem find? (h : XattrMap s ino m) (hv : m name = some value) :
    s.records.find? (xattrKey ino name) = some (encodeXattrItemPayload name value) :=
  (h.stored _ _).mpr ⟨name, value, hv, rfl, rfl⟩

theorem empty (h : s.records.keep (inPrefix ino typeXattrItem) = []) :
    XattrMap s ino fun _ => none := by
  refine ⟨?_, fun hash d => ⟨fun hfind => ?_, nofun⟩, nofun⟩
  · rw [Records.Distinct, h]
    exact List.nodup_nil
  · have hmem : (⟨ino, typeXattrItem, hash⟩, d) ∈ s.records.keep (inPrefix ino typeXattrItem) :=
      List.mem_filter.mpr ⟨Records.mem_of_find? hfind, by simp [inPrefix]⟩
    rw [h] at hmem
    cases hmem

/-- A call on a name whose hash is free is a change of the map. -/
theorem step (h : XattrMap s ino m) (hmax : s.sb.nodeSize ≤ maxNodeSize)
    (hstep : XattrStep op ino s s') (hfree : HashFree m op.name) : XattrMap s' ino (op.apply m) := by
  refine ⟨hstep.distinct ino h.distinct, fun hash d => ?_, fun n v hv => ?_⟩
  · by_cases hhash : hash = hashDirName op.name
    · subst hhash
      change s'.records.find? (xattrKey ino op.name) = some d ↔ _
      rw [hstep.item h.distinct, XattrOp.item, Option.map_eq_some_iff]
      constructor
      · rintro ⟨v, hv, rfl⟩
        refine ⟨op.name, v, ?_, rfl, rfl⟩
        rw [XattrOp.apply, Function.update_self, hv]
      · rintro ⟨n, v, hv, hsame, rfl⟩
        by_cases hn : n = op.name
        · subst hn
          rw [XattrOp.apply, Function.update_self] at hv
          exact ⟨v, hv, rfl⟩
        · rw [XattrOp.apply, Function.update_of_ne hn] at hv
          exact absurd (hfree n (by rw [hv]; nofun) hsame) hn
    · rw [hstep.other _ rfl (by rintro ⟨⟩; exact hhash rfl), h.stored]
      have hsame : ∀ n, hashDirName n = hash → op.apply m n = m n := by
        rintro n rfl
        refine Function.update_of_ne ?_ _ _
        rintro rfl
        exact hhash rfl
      constructor
      · rintro ⟨n, v, hv, hn, hd⟩
        exact ⟨n, v, (hsame n hn).trans hv, hn, hd⟩
      · rintro ⟨n, v, hv, hn, hd⟩
        exact ⟨n, v, (hsame n hn).symm.trans hv, hn, hd⟩
  · by_cases hn : n = op.name
    · subst hn
      rw [XattrOp.apply, Function.update_self] at hv
      exact hstep.fits hmax v hv
    · rw [XattrOp.apply, Function.update_of_ne hn] at hv
      exact h.fits n v hv

end XattrMap

/-! ## 4. What is read -/

section reads

variable {i : InodeItem} (hlook : pathLookup mapBackend s p = .ok i)
include hlook

end reads

/-- A call on the attributes of a path, and the state after it. -/
structure XattrCall where
  path : Path
  op : XattrOp
  after : MapFs

/-- The map after a call, whose path led to the inode at the start or elsewhere. -/
def XattrCall.apply (s₀ : MapFs) (ino : Nat) (x : XattrCall) (m : Name → Option Bytes) :
    Name → Option Bytes :=
  if pathLookupIno mapBackend s₀ x.path = .ok ino then x.op.apply m else m

end Btrfs
