/-
  Btrfs/Names.lean
  ================
  **The items of the namespace** — what a step does to them, one item at a time.

  Directories and links are kept in four kinds of items.  The DIR_INDEX items, the
  DIR_ITEMs and the INODE_REFs are looked at as they are, an INODE_ITEM as far as it is
  decoded.  As long as no two of them have the same key, a tree operation changes this
  view at one place.
-/
import Btrfs.Calm
import Btrfs.WriteRead

namespace Btrfs

open Lib

variable {s s' : MapFs} {ino : Nat} {now : Timespec}

/-! ## 1. The view -/

/-- The places of the items of the namespace other than INODE_ITEMs. -/
inductive NameKey
  | index (dir idx : Nat)
  | item (dir hash : Nat)
  | ref (ino dir : Nat)
  deriving DecidableEq

namespace NameKey

def key : NameKey → Key
  | index dir idx => ⟨dir, typeDirIndex, idx⟩
  | item dir hash => ⟨dir, typeDirItem, hash⟩
  | ref ino dir => ⟨ino, typeInodeRef, dir⟩

theorem key_injective {k k' : NameKey} (h : k.key = k'.key) : k = k' := by
  cases k <;> cases k' <;> simp_all [key, typeDirIndex, typeDirItem, typeInodeRef]

theorem key_ne_inode (k : NameKey) (ino : Nat) : k.key ≠ ⟨ino, typeInodeItem, 0⟩ := by
  cases k <;> simp [key, typeDirIndex, typeDirItem, typeInodeRef, typeInodeItem]

end NameKey

def nameTypes : List Nat := [typeInodeItem, typeInodeRef, typeDirItem, typeDirIndex]

def isNameKey (k : Key) : Bool := decide (k.typ ∈ nameTypes)

theorem isNameKey_key (k : NameKey) : isNameKey k.key = true := by
  cases k <;> simp [isNameKey, nameTypes, NameKey.key]

theorem isNameKey_inode (ino : Nat) : isNameKey ⟨ino, typeInodeItem, 0⟩ = true := by
  simp [isNameKey, nameTypes]

def MapFs.names (s : MapFs) (k : NameKey) : Option Bytes := s.records.find? k.key

def MapFs.inodes (s : MapFs) (ino : Nat) : Option InodeItem :=
  (s.inodeAt ino).map (decodeInodeItem ino)

/-- No two items of the namespace have the same key, and the INODE_ITEMs are whole. -/
structure NamesOk (s : MapFs) : Prop where
  distinct : s.records.Distinct isNameKey
  whole : ∀ ino d, s.inodeAt ino = some d → Whole d

/-- The view of a filesystem in order. -/
structure Shows (s : MapFs) (v : NameKey → Option Bytes) (w : Nat → Option InodeItem) : Prop where
  ok : NamesOk s
  names : s.names = v
  inodes : s.inodes = w

variable {v : NameKey → Option Bytes} {w : Nat → Option InodeItem} {k : NameKey} {d : Bytes}

/-! ## 2. Tree operations -/

namespace Shows

theorem find?_key (h : Shows s v w) (k : NameKey) : s.records.find? k.key = v k :=
  congrFun h.names k

theorem inodeAt_map (h : Shows s v w) (ino : Nat) :
    (s.inodeAt ino).map (decodeInodeItem ino) = w ino := congrFun h.inodes ino

theorem inodeAt_none (h : Shows s v w) : s.inodeAt ino = none ↔ w ino = none := by
  rw [← h.inodeAt_map, Option.map_eq_none_iff]

/-- Items of other types do not show. -/
theorem kept (h : Shows s v w) (hkept : s'.ofTypes nameTypes = s.ofTypes nameTypes) :
    Shows s' v w := by
  have hkeep : s'.records.keep isNameKey = s.records.keep isNameKey := hkept
  have hinode : ∀ ino, s'.inodeAt ino = s.inodeAt ino :=
    fun ino => Records.find?_of_keep hkeep (isNameKey_inode ino)
  refine ⟨⟨h.ok.distinct.of_keep hkeep, ?_⟩, ?_, ?_⟩
  · intro ino d hd
    exact h.ok.whole ino d ((hinode ino).symm.trans hd)
  · funext k
    exact (Records.find?_of_keep hkeep (isNameKey_key k)).trans (h.find?_key k)
  · funext ino
    rw [MapFs.inodes, hinode]
    exact h.inodeAt_map ino

/-- A change at one place of the namespace. -/
theorem changed {x : Option Bytes} (h : Shows s v w) (hdistinct : s'.records.Distinct isNameKey)
    (hk : s'.records.find? k.key = x)
    (hother : ∀ k', k.key ≠ k' → s'.records.find? k' = s.records.find? k') :
    Shows s' (Function.update v k x) w := by
  have hinode : ∀ ino, s'.inodeAt ino = s.inodeAt ino := fun ino => hother _ (k.key_ne_inode ino)
  refine ⟨⟨hdistinct, ?_⟩, ?_, ?_⟩
  · intro ino d hd
    exact h.ok.whole ino d ((hinode ino).symm.trans hd)
  · funext k'
    by_cases heq : k' = k
    · rw [heq, Function.update_self]
      exact hk
    · rw [Function.update_of_ne heq]
      exact (hother _ fun hkey => heq (NameKey.key_injective hkey).symm).trans (h.find?_key k')
  · funext ino
    rw [MapFs.inodes, hinode]
    exact h.inodeAt_map ino

theorem insert (h : Shows s v w) (hfresh : v k = none)
    (hrun : mapBackend.cowInsert k.key d s = .ok () s') :
    Shows s' (Function.update v k (some d)) w := by
  obtain ⟨-, hrec, -⟩ := insert_effect hrun
  have hnone : s.records.find? k.key = none := (h.find?_key k).trans hfresh
  refine h.changed (hrec ▸ h.ok.distinct.insert hnone) ?_ fun k' hne => ?_
  · rw [hrec, Records.find?_insert_self, hnone]
    rfl
  · rw [hrec, Records.find?_insert_of_ne hne]

theorem update (h : Shows s v w) (hrun : mapBackend.cowUpdate k.key d s = .ok () s') :
    Shows s' (Function.update v k (some d)) w := by
  obtain ⟨-, hrec, -, hsome⟩ := update_effect hrun
  refine h.changed (hrec ▸ h.ok.distinct.update) ?_ fun k' hne => ?_
  · rw [hrec, Records.find?_update_self hsome]
  · rw [hrec, Records.find?_update_of_ne hne]

theorem erase (h : Shows s v w) (hrec : s'.records = s.records.erase k.key) :
    Shows s' (Function.update v k none) w := by
  refine h.changed (hrec ▸ h.ok.distinct.erase) ?_ fun k' hne => ?_
  · rw [hrec, h.ok.distinct.find?_erase_self (isNameKey_key k)]
  · rw [hrec, Records.find?_erase_of_ne hne]

/-- A change of one INODE_ITEM. -/
theorem changedInode {x : Option Bytes} (h : Shows s v w)
    (hdistinct : s'.records.Distinct isNameKey) (hi : s'.inodeAt ino = x)
    (hwhole : ∀ d, x = some d → Whole d)
    (hother : ∀ k', (⟨ino, typeInodeItem, 0⟩ : Key) ≠ k' →
      s'.records.find? k' = s.records.find? k') :
    Shows s' v (Function.update w ino (x.map (decodeInodeItem ino))) := by
  have hinode : ∀ ino', ino' ≠ ino → s'.inodeAt ino' = s.inodeAt ino' := by
    intro ino' hne
    refine hother _ fun heq => hne ?_
    rw [Key.mk.injEq] at heq
    exact heq.1.symm
  refine ⟨⟨hdistinct, ?_⟩, ?_, ?_⟩
  · intro ino' d hd
    by_cases heq : ino' = ino
    · subst heq
      exact hwhole d (hi.symm.trans hd)
    · exact h.ok.whole ino' d ((hinode ino' heq).symm.trans hd)
  · funext k
    exact (hother _ (Ne.symm (k.key_ne_inode ino))).trans (h.find?_key k)
  · funext ino'
    by_cases heq : ino' = ino
    · subst heq
      rw [Function.update_self, MapFs.inodes, hi]
    · rw [Function.update_of_ne heq, MapFs.inodes, hinode ino' heq]
      exact h.inodeAt_map ino'

theorem insertInode (h : Shows s v w) (hfresh : w ino = none) (hwhole : Whole d)
    (hrun : mapBackend.cowInsert ⟨ino, typeInodeItem, 0⟩ d s = .ok () s') :
    Shows s' v (Function.update w ino (some (decodeInodeItem ino d))) := by
  obtain ⟨-, hrec, -⟩ := insert_effect hrun
  have hnone : s.records.find? ⟨ino, typeInodeItem, 0⟩ = none := h.inodeAt_none.mpr hfresh
  refine h.changedInode (x := some d) (hrec ▸ h.ok.distinct.insert hnone) ?_ ?_ fun k' hne => ?_
  · rw [MapFs.inodeAt, hrec, Records.find?_insert_self, hnone]
    rfl
  · intro d' hd'
    exact Option.some.inj hd' ▸ hwhole
  · rw [hrec, Records.find?_insert_of_ne hne]

theorem eraseInode (h : Shows s v w)
    (hrun : mapBackend.cowDelete ⟨ino, typeInodeItem, 0⟩ s = .ok () s') :
    Shows s' v (Function.update w ino none) := by
  obtain ⟨-, hrec, -⟩ := delete_effect hrun
  refine h.changedInode (x := none) (hrec ▸ h.ok.distinct.erase) ?_ nofun fun k' hne => ?_
  · rw [MapFs.inodeAt, hrec, h.ok.distinct.find?_erase_self (isNameKey_inode ino)]
  · rw [hrec, Records.find?_erase_of_ne hne]

end Shows

/-! ## 3. Edits of an inode -/

/-- What an edit of a whole INODE_ITEM does to its decoded part. -/
def EditsTo (ino : Nat) (f : MapFs → Bytes → Bytes) (g : InodeItem → InodeItem) : Prop :=
  ∀ s d, Whole d → Whole (f s d) ∧ decodeInodeItem ino (f s d) = g (decodeInodeItem ino d)

theorem Shows.edit {readErr updateErr : String} {f : MapFs → Bytes → Bytes}
    {g : InodeItem → InodeItem} (h : Shows s v w) (hf : EditsTo ino f g)
    (hrun : editInode mapBackend ino readErr updateErr f s = .ok () s') :
    ∃ i, w ino = some i ∧ Shows s' v (Function.update w ino (some (g i))) := by
  obtain ⟨-, d, hd, hrec⟩ := editInode_effect hrun
  obtain ⟨hwhole, hdec⟩ := hf s d (h.ok.whole ino d hd)
  have hw : w ino = some (decodeInodeItem ino d) := by
    rw [← h.inodeAt_map, MapFs.inodeAt, hd]
    rfl
  refine ⟨_, hw, ?_⟩
  rw [← hdec]
  refine h.changedInode (x := some (f s d)) (hrec ▸ h.ok.distinct.update) ?_ ?_ fun k' hne => ?_
  · rw [MapFs.inodeAt, hrec, Records.find?_update_self (by rw [hd]; rfl)]
  · intro d' hd'
    exact Option.some.inj hd' ▸ hwhole
  · rw [hrec, Records.find?_update_of_ne hne]

section edits

variable {d : Bytes}

theorem editsTo_touch (ino : Nat) (now : Timespec) (generation : MapFs → Nat) :
    EditsTo ino (fun s d =>
      let d := putLE 4 inodeOffNLink ((leAt 4 inodeOffNLink d : Int) + 0).toNat d
      let d := bumpInodeTransIDSequence (generation s) d
      writeBtrfsTimespec inodeOffMTime now (writeBtrfsTimespec inodeOffCTime now d)) id := by
  intro s d hd
  have hlink := hd.put 4 inodeOffNLink ((leAt 4 inodeOffNLink d : Int) + 0).toNat (by decide)
  have hbump := hlink.bump (generation s)
  have htime := hbump.times inodeOffCTime now (by decide)
  refine ⟨htime.times inodeOffMTime now (by decide), ?_⟩
  have hsame : ((leAt 4 inodeOffNLink d : Int) + 0).toNat % 2 ^ 32 = leAt 4 inodeOffNLink d := by
    rw [Int.add_zero, Int.toNat_natCast]
    exact Nat.mod_eq_of_lt (leAt_lt 4 inodeOffNLink d)
  dsimp only
  rw [decode_writeBtrfsTimespec _ (by decide) (le_trans (by decide) htime),
    decode_writeBtrfsTimespec _ (by decide) (le_trans (by decide) hbump),
    decode_bumpInodeTransIDSequence _ hlink, decode_putNLink_mod _ hd, hsame]
  rfl

theorem editsTo_size (ino : Nat) (delta : Int) :
    EditsTo ino (fun _ d => putLE 8 inodeOffSize ((leAt 8 inodeOffSize d : Int) + delta).toNat d)
      fun i => { i with size := ((i.size : Int) + delta).toNat % 2 ^ 64 } := by
  intro s d hd
  exact ⟨hd.put 8 inodeOffSize _ (by decide), decode_putSize_mod _ hd⟩

/-- A link count, with the stamps of the change. -/
theorem editsTo_nlink (ino : Nat) (now : Timespec) (generation : MapFs → Nat) (n : Nat → Nat) :
    EditsTo ino (fun s d =>
      let d := putLE 4 inodeOffNLink (n (leAt 4 inodeOffNLink d)) d
      let d := bumpInodeTransIDSequence (generation s) d
      writeBtrfsTimespec inodeOffCTime now d)
      fun i => { i with nlink := n i.nlink % 2 ^ 32 } := by
  intro s d hd
  have hlink := hd.put 4 inodeOffNLink (n (leAt 4 inodeOffNLink d)) (by decide)
  have hbump := hlink.bump (generation s)
  refine ⟨hbump.times inodeOffCTime now (by decide), ?_⟩
  dsimp only
  rw [decode_writeBtrfsTimespec _ (by decide) (le_trans (by decide) hbump),
    decode_bumpInodeTransIDSequence _ hlink, decode_putNLink_mod _ hd]
  rfl

theorem editsTo_overwritten (ino : Nat) (now : Timespec) (data : Bytes) :
    EditsTo ino (fun s => overwritten s.sb now data)
      fun i => { i with size := data.length % 2 ^ 64 } := by
  intro s d hd
  have hsize := hd.put 8 inodeOffSize data.length (by decide)
  have hbytes := hsize.put 8 inodeOffNBytes (classifyExtent data s.sb.sectorSize) (by decide)
  have hbump := hbytes.bump (s.sb.generation + 1)
  have htime := hbump.times inodeOffCTime now (by decide)
  refine ⟨htime.times inodeOffMTime now (by decide), ?_⟩
  unfold overwritten
  dsimp only
  rw [decode_writeBtrfsTimespec _ (by decide) (le_trans (by decide) htime),
    decode_writeBtrfsTimespec _ (by decide) (le_trans (by decide) hbump),
    decode_bumpInodeTransIDSequence _ hbytes, decode_putNBytes _ hsize, decode_putSize_mod _ hd]

/-- An edit with the stamps of `updateInodeMetadata`. -/
theorem EditsTo.stamped {f : MapFs → Bytes → Bytes} {g : InodeItem → InodeItem} (h : EditsTo ino f g)
    (now : Timespec) (generation : MapFs → Nat) :
    EditsTo ino (fun s d => writeBtrfsTimespec inodeOffCTime now
      (bumpInodeTransIDSequence (generation s) (f s d))) g := by
  intro s d hd
  obtain ⟨hwhole, hdec⟩ := h s d hd
  have hbump := hwhole.bump (generation s)
  refine ⟨hbump.times inodeOffCTime now (by decide), ?_⟩
  rw [decode_writeBtrfsTimespec _ (by decide) (le_trans (by decide) hbump),
    decode_bumpInodeTransIDSequence _ hwhole, hdec]

/-- A call of `updateInodeMetadata` replaces one INODE_ITEM. -/
theorem updateInodeMetadata_effect {i : InodeItem} {f : MapFs → Bytes → Bytes}
    {g : InodeItem → InodeItem} {now : Timespec} (hf : EditsTo i.num f g) (hnum : (g i).num = i.num)
    (hread : readInode mapBackend s i.num = .ok i)
    (hrun : updateInodeMetadata mapBackend now i.num f s = .ok () s') :
    s'.sb.nodeSize = s.sb.nodeSize ∧
      (∃ d, s'.records = s.records.update ⟨i.num, typeInodeItem, 0⟩ d) ∧
      readInode mapBackend s' i.num = .ok (g i) := by
  obtain ⟨_, t₁, hedit, hcommit⟩ := run_bind.mp hrun
  obtain ⟨hsb, d, hd, hrec⟩ := editInode_effect hedit
  obtain ⟨hgeom, hsame⟩ := commit_effect hcommit
  rw [hrec] at hsame
  obtain ⟨-, d₀, hd₀, hdec⟩ := readInode_num hread
  obtain rfl : d₀ = d := Option.some.inj (hd₀.symm.trans hd)
  obtain ⟨hwhole, hitem⟩ := hf.stamped now (fun s => (mapBackend.sb s).generation + 1) s d₀
    hdec.length_ge
  refine ⟨hgeom.nodeSize.trans (by rw [hsb]), ⟨_, hsame⟩, ?_⟩
  refine readInode_of_decodes ?_ ⟨rfl, hwhole, ?_⟩ hnum
  · rw [hsame, Records.find?_update_self (by rw [hd]; rfl)]
  · rw [hnum, hitem, hdec.item]

theorem editsTo_id (ino : Nat) : EditsTo ino (fun _ d => d) id := fun _ _ hd => ⟨hd, rfl⟩

theorem editsTo_owner (ino uid gid : Nat) :
    EditsTo ino (fun _ d => putLE 4 inodeOffGID gid (putLE 4 inodeOffUID uid d)) id := by
  intro s d hd
  have huid := hd.put 4 inodeOffUID uid (by decide)
  refine ⟨huid.put 4 inodeOffGID gid (by decide), ?_⟩
  rw [decode_putLE_of_disjoint _ (le_trans (by decide) huid) (Or.inr (by decide)) (Or.inl (by decide))
      (Or.inl (by decide)),
    decode_putLE_of_disjoint _ (le_trans (by decide) hd) (Or.inr (by decide)) (Or.inl (by decide))
      (Or.inl (by decide))]
  rfl

theorem editsTo_times (ino : Nat) (atime mtime : Timespec) :
    EditsTo ino (fun _ d =>
      writeBtrfsTimespec inodeOffMTime mtime (writeBtrfsTimespec inodeOffATime atime d)) id := by
  intro s d hd
  have hatime := hd.times inodeOffATime atime (by decide)
  refine ⟨hatime.times inodeOffMTime mtime (by decide), ?_⟩
  rw [decode_writeBtrfsTimespec _ (by decide) (le_trans (by decide) hatime),
    decode_writeBtrfsTimespec _ (by decide) (le_trans (by decide) hd)]
  rfl

theorem newMode_mod (cur perm : Nat) : newMode cur perm % 2 ^ 16 = newMode (cur % 2 ^ 16) perm := by
  have hlow : perm &&& 0o7777 < 2 ^ 12 := lt_of_le_of_lt Nat.and_le_right (by decide)
  have hsum : ∀ m, newMode m perm = 2 ^ 12 * (m / 0o10000) + (perm &&& 0o7777) := by
    intro m
    rw [Nat.two_pow_add_eq_or_of_lt hlow, newMode, Nat.mul_comm]
  rw [hsum, hsum]
  omega

/-- The file type of a mode stays. -/
theorem newMode_type (cur perm : Nat) : newMode cur perm &&& 0xF000 = cur &&& 0xF000 := by
  have hperm : perm &&& 0o7777 &&& 0xF000 = 0 := by
    rw [Nat.and_assoc]
    exact Nat.and_zero perm
  have hhigh : cur / 0o10000 * 0o10000 &&& 0xF000 = cur &&& 0xF000 := by
    have hshift : cur / 0o10000 * 0o10000 = cur >>> 12 <<< 12 := by
      rw [Nat.shiftLeft_eq, Nat.shiftRight_eq_div_pow]
    apply Nat.eq_of_testBit_eq
    intro i
    rw [hshift, Nat.testBit_and, Nat.testBit_and, Nat.testBit_shiftLeft, Nat.testBit_shiftRight]
    by_cases hi : 12 ≤ i
    · simp [hi]
    · have hbit : Nat.testBit (15 <<< 12) i = false := by
        rw [Nat.testBit_shiftLeft]
        simp [hi]
      rw [show (0xF000 : Nat) = 15 <<< 12 from rfl, hbit, Bool.and_false, Bool.and_false]
  rw [newMode, Nat.and_or_distrib_right, hperm, Nat.or_zero, hhigh]

theorem editsTo_mode (ino perm : Nat) :
    EditsTo ino (fun _ d => putLE 4 inodeOffMode (newMode (leAt 4 inodeOffMode d) perm) d)
      fun i => { i with mode := newMode i.mode perm } := by
  intro s d hd
  refine ⟨hd.put 4 inodeOffMode _ (by decide), ?_⟩
  have hlow : perm &&& 0o7777 < 2 ^ 32 := lt_of_le_of_lt Nat.and_le_right (by decide)
  have hlt : newMode (leAt 4 inodeOffMode d) perm < 2 ^ 32 := by
    refine Nat.or_lt_two_pow (lt_of_le_of_lt (Nat.div_mul_le_self _ _) ?_) hlow
    exact leAt_lt 4 inodeOffMode d
  rw [decode_putMode _ hd hlt, newMode_mod]
  rfl

theorem editsTo_putSize (ino newSize : Nat) :
    EditsTo ino (fun _ d => putLE 8 inodeOffSize newSize d)
      fun i => { i with size := newSize % 2 ^ 64 } :=
  fun _ _ hd => ⟨hd.put 8 inodeOffSize newSize (by decide), decode_putSize_mod _ hd⟩

theorem editsTo_putSizes (ino newSize : Nat) (nbytes : MapFs → Nat) :
    EditsTo ino (fun s d => putLE 8 inodeOffNBytes (nbytes s) (putLE 8 inodeOffSize newSize d))
      fun i => { i with size := newSize % 2 ^ 64 } := by
  intro s d hd
  have hsize := hd.put 8 inodeOffSize newSize (by decide)
  refine ⟨hsize.put 8 inodeOffNBytes (nbytes s) (by decide), ?_⟩
  rw [decode_putNBytes _ hsize, decode_putSize_mod _ hd]

theorem editsTo_truncate {newSize : Nat} {f : MapFs → Bytes → Bytes} (h : TruncateEdit newSize f)
    (ino : Nat) : ∃ g, EditsTo ino f g ∧ ∀ i, (g i).mode = i.mode ∧ (g i).nlink = i.nlink := by
  cases h with
  | grow => exact ⟨_, editsTo_putSize ino newSize, fun i => ⟨rfl, rfl⟩⟩
  | same => exact ⟨id, editsTo_id ino, fun i => ⟨rfl, rfl⟩⟩
  | shrink n => exact ⟨_, editsTo_putSizes ino newSize n, fun i => ⟨rfl, rfl⟩⟩

end edits

/-! ## 4. Steps of the calls -/

namespace Shows

theorem ofBody (h : Shows s v w) (hbody : BodyAdded ino s s') : Shows s' v w := by
  obtain ⟨items, hrec, hitems⟩ := hbody.items
  refine h.kept ?_
  rw [MapFs.ofTypes, hrec]
  refine Records.keep_insertAll_of_false fun e he => ?_
  have htyp := hitems e he
  simp only [inPrefix, decide_eq_true_eq] at htyp
  rw [htyp.2]
  rfl

theorem commit (h : Shows s v w) (hrun : mapBackend.updateFsTreeRoot s = .ok () s') :
    Shows s' v w := h.kept (calm_commit.of_ok hrun).kept

theorem touch (h : Shows s v w) (hrun : touchDir mapBackend now ino s = .ok () s') :
    Shows s' v w := by
  obtain ⟨i, hi, hs'⟩ := h.edit (editsTo_touch ino now fun s => (mapBackend.sb s).generation + 1) hrun
  have hsame : Function.update w ino (some (id i)) = w := by
    rw [id, ← hi, Function.update_eq_self]
  exact hsame ▸ hs'

theorem resize {delta : Int} (h : Shows s v w) (hdelta : delta ≠ 0)
    (hrun : adjustDirSize mapBackend ino delta s = .ok () s') :
    ∃ i, w ino = some i ∧ Shows s' v (Function.update w ino
      (some { i with size := ((i.size : Int) + delta).toNat % 2 ^ 64 })) := by
  rw [adjustDirSize, if_neg hdelta] at hrun
  exact h.edit (editsTo_size ino delta) hrun

theorem forget {format : String} (h : Shows s v w)
    (hrun : tolerateNotFound format (mapBackend.cowDelete k.key) s = .ok () s') :
    Shows s' (Function.update v k none) w := h.erase (tolerateDelete_effect hrun).2

/-- Insert the DIR_INDEX and the DIR_ITEM of an entry. -/
theorem insertDirEntry {indexErr itemErr : String} {args : List ErrArg} {dir idx : Nat}
    {name : Name} (h : Shows s v w) (hindex : v (.index dir idx) = none)
    (hitem : v (.item dir (hashDirName name)) = none)
    (hrun : insertDirEntry mapBackend indexErr itemErr args dir idx name d s = .ok () s') :
    Shows s' (Function.update (Function.update v (.index dir idx) (some d))
      (.item dir (hashDirName name)) (some d)) w := by
  obtain ⟨_, s₁, hins, hins'⟩ := run_bind.mp hrun
  have h₁ := h.insert (k := .index dir idx) hindex (run_wrapErr.mp hins)
  refine h₁.insert (k := .item dir (hashDirName name)) ?_ (run_wrapErr.mp hins')
  rw [Function.update_of_ne (by simp)]
  exact hitem

end Shows

end Btrfs
