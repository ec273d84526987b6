/-
  Btrfs/NodeCache.lean
  ====================
  **The node cache** — `nodecache.go` and the public calls of `fs.go`, `openfile.go`,
  `subvol.go` and `resize.go` that install or drop it.

  A read call goes through the cache, and the nodes it reads stay there for the next call.
  A mutator works on the device below the cache; where it may have changed anything, it
  drops the cache before it returns, whether it succeeds or fails.  Between two mutators
  the device does not change, so what the cache holds is what the device holds.

  Nothing is assumed of what a mutator does to the device, the superblock, the free list
  and the root of the FS tree: it may reuse the address of a node within or across
  transactions, rewrite a node in place, or move the generation or not.  The test on the
  generation in `reader` is therefore never needed (`nodeCache_transparent`).
-/
import Btrfs.ReadPath

namespace Btrfs.Raw

open Lib

/-! ## 1. The cache -/

/-- The cached nodes by logical address, newest first. -/
abbrev Nodes := List (Nat × Bytes)

def cachedNode (nodes : Nodes) (logAddr : Nat) : Option Bytes := nodes.lookup logAddr

def putNode (nodes : Nodes) (logAddr : Nat) (buf : Bytes) : Nodes := (logAddr, buf) :: nodes

theorem cachedNode_putNode {nodes : Nodes} {a a' : Nat} {b b' : Bytes}
    (h : cachedNode (putNode nodes a b) a' = some b') :
    a' = a ∧ b' = b ∨ cachedNode nodes a' = some b' := by
  unfold cachedNode putNode at h
  rw [List.lookup_cons] at h
  by_cases ha : a' = a
  · subst ha
    rw [beq_self_eq_true] at h
    exact Or.inl ⟨rfl, (Option.some.inj h).symm⟩
  · rw [beq_false_of_ne ha] at h
    exact Or.inr h

/-- What `readNode` does with the cache of its reader: a node that was read is kept, an error is
    not, and other reads pass it by. -/
def nodeCache : Ask.Cache Question Answer where
  Table := Nodes
  find nodes q :=
    match q with
    | .node a => (cachedNode nodes a).map .ok
    | .data _ _ => none
  put nodes q r :=
    match q, r with
    | .node a, .ok buf => putNode nodes a buf
    | _, _ => nodes
  find_put := by
    intro nodes q r q' r' h
    match q, r with
    | .data _ _, _ => exact Or.inr h
    | .node _, .error _ => exact Or.inr h
    | .node a, .ok b =>
      match q' with
      | .data _ _ => cases h
      | .node a' =>
        obtain ⟨b', hb', rfl⟩ := Option.map_eq_some_iff.mp h
        rcases cachedNode_putNode hb' with ⟨rfl, rfl⟩ | hold
        · exact Or.inl ⟨rfl, rfl⟩
        · exact Or.inr (Option.map_eq_some_iff.mpr ⟨b', hold, rfl⟩)

/-- A cache and the generation it was made for. -/
structure CachedNodes where
  nodes : Nodes
  builtGen : Nat
  deriving DecidableEq, Repr

/-- What the mutators work on. -/
structure Store where
  dev : ReaderAt
  sb : Superblock
  sm : SpaceManager
  fsTreeRoot : Nat

structure OpenFs where
  store : Store
  cache : Option CachedNodes

/-- The cache, made anew when the generation has moved on. -/
def OpenFs.reader (fs : OpenFs) : CachedNodes × OpenFs :=
  let fresh : CachedNodes := ⟨[], fs.store.sb.generation⟩
  match fs.cache with
  | none => (fresh, { fs with cache := some fresh })
  | some c =>
    if c.builtGen ≠ fs.store.sb.generation then (fresh, { fs with cache := some fresh }) else (c, fs)

def OpenFs.invalidateCache (fs : OpenFs) : OpenFs := { fs with cache := none }

/-! ## 2. Read calls -/

inductive ReadCall
  | readFile (p : Path)
  | listDir (p : Path)
  | stat (p : Path)
  | readLink (p : Path)
  | getXattr (p : Path) (name : Name)
  | xattrs (p : Path)
  | openFile (p : Path)
  | readAt (f : BtrfsFile) (p : Bytes) (off : Int)
  deriving DecidableEq, Repr

/-- A call on the filesystem, or on the view of a subvolume with its root. -/
structure Read where
  view : Option Nat
  call : ReadCall
  deriving DecidableEq, Repr

inductive Reply
  | content (b : Bytes)
  | entries (l : List DirEntry)
  | stat (mode size num : Nat)
  | attrs (l : List (Name × Bytes))
  | file (f : BtrfsFile)
  | window (b : Bytes) (eof : Bool)
  deriving DecidableEq, Repr

section Programs

variable (dec : Decoders) (sb : Superblock) (root : Nat)

def readFile (p : Path) : ReadM Bytes := do
  let i ← pathLookup root p
  if !i.isRegular then .fail (.errorf "btrfs: %q is not a regular file" [.names p])
  else readFileData dec sb hardSizeCeiling root i

def listDir (p : Path) : ReadM (List DirEntry) := do
  let i ← pathLookup root p
  if !i.isDir then .fail (.errorf "btrfs: %q is not a directory" [.names p])
  else readDir root i.num

def readLink (p : Path) : ReadM Bytes := do
  let i ← pathLookup root p
  if !i.isSymlink then .fail (.errorf "btrfs: %q is not a symbolic link" [.names p])
  else
    (readFileData dec sb hardSizeCeiling root i).mapErr
      (.wrap "btrfs: read symlink inode %d: %w" [.num i.num])

def getXattrInode (p : Path) (name : Name) : ReadM Bytes := do
  let i ← pathLookup root p
  let d ← (searchData root ⟨i.num, typeXattrItem, hashDirName name⟩).mapErr
    (.wrap "btrfs getxattr %q on %q: %w" [.names [name], .names p])
  match ← parseXattrItem d with
  | none => .fail (.errorf "btrfs getxattr %q on %q: malformed item" [.names [name], .names p])
  | some (gotName, gotValue) =>
    if gotName ≠ name then
      .fail (.wrap "btrfs getxattr %q on %q: hash collision (got %q): %w"
        [.names [name], .names p, .names [gotName]] (.sentinel .errNotFound))
    else return gotValue

/-- The pairs in the order in which they are put into the map. -/
def xattrs (p : Path) : ReadM (List (Name × Bytes)) := do
  let i ← pathLookup root p
  match ← (collectPrefixItems root i.num typeXattrItem).attempt with
  | .error e => if e.is .errNotFound then return [] else .fail e
  | .ok items =>
    (items.foldlM (fun out e => do return out ++ (← parseXattrItem e.2).toList) [] : Go _)

def ReadCall.prog : ReadCall → ReadM Reply
  | .readFile p => do return .content (← Raw.readFile dec sb root p)
  | .listDir p => do return .entries (← Raw.listDir root p)
  | .stat p => do
    let i ← pathLookup root p
    return .stat i.mode i.size i.num
  | .readLink p => do return .content (← Raw.readLink dec sb root p)
  | .getXattr p name => do return .content (← getXattrInode root p name)
  | .xattrs p => do return .attrs (← Raw.xattrs root p)
  | .openFile p => do return .file (← openBtrfsFile root p)
  | .readAt f p off => do
    let r ← Raw.readAt dec sb hardSizeCeiling f p off
    return .window r.1 r.2

end Programs

def Read.prog (dec : Decoders) (st : Store) (rd : Read) : ReadM Reply :=
  rd.call.prog dec st.sb (rd.view.getD st.fsTreeRoot)

/-- A read through the cache. -/
def OpenFs.read (dec : Decoders) (fs : OpenFs) (rd : Read) : Go Reply × OpenFs :=
  let (c, fs) := fs.reader
  let (r, nodes) := (rd.prog dec fs.store).runCached (answers fs.store.dev fs.store.sb) nodeCache c.nodes
  (r, { fs with cache := some { c with nodes } })

/-- The same read with every node read from the device. -/
def Store.read (dec : Decoders) (st : Store) (rd : Read) : Go Reply :=
  (rd.prog dec st).run (answers st.dev st.sb)

/-! ## 3. Mutators -/

inductive Mutator
  | file (c : Call)
  | truncate (p : Path) (newSize : Int)
  | grow (newSizeBytes : Int)
  | shrink (newSizeBytes : Int)
  deriving DecidableEq, Repr

/-- Calls that are turned down before the filesystem is locked. -/
def Mutator.refused : Mutator → Option Err
  | .file _ => none
  | .truncate p newSize =>
    if newSize < 0 then
      some (.errorf "btrfs truncate: %q: negative size %d" [.names p, .num newSize])
    else none
  | .grow newSizeBytes =>
    if newSizeBytes < 0 then some (.errorf "btrfs grow: negative size %d" [.num newSizeBytes])
    else none
  | .shrink newSizeBytes =>
    if newSizeBytes < 0 then some (.errorf "btrfs shrink: negative size %d" [.num newSizeBytes])
    else none

/-- What a mutator does below the cache. -/
abbrev Body := Store → Except Err Unit × Store

/-- A mutator defers `invalidateCache` before its body runs. -/
def OpenFs.mutate (fs : OpenFs) (m : Mutator) (body : Body) : Except Err Unit × OpenFs :=
  match m.refused with
  | some e => (.error e, fs)
  | none =>
    let (r, st) := body fs.store
    (r, OpenFs.invalidateCache { fs with store := st })

def Store.mutate (st : Store) (m : Mutator) (body : Body) : Except Err Unit × Store :=
  match m.refused with
  | some e => (.error e, st)
  | none => body st

/-! ## 4. Interleavings -/

inductive Event
  | read (rd : Read)
  | mutate (m : Mutator) (body : Body)

inductive Outcome
  | reply (r : Go Reply)
  | result (r : Except Err Unit)

/-- What a sequence of calls returns. -/
def OpenFs.trace (dec : Decoders) : OpenFs → List Event → List Outcome
  | _, [] => []
  | fs, .read rd :: events =>
    let (r, fs) := fs.read dec rd
    .reply r :: fs.trace dec events
  | fs, .mutate m body :: events =>
    let (r, fs) := fs.mutate m body
    .result r :: fs.trace dec events

/-- What it returns when `readNode` always reads from the device. -/
def Store.trace (dec : Decoders) : Store → List Event → List Outcome
  | _, [] => []
  | st, .read rd :: events => .reply (st.read dec rd) :: st.trace dec events
  | st, .mutate m body :: events =>
    let (r, st) := st.mutate m body
    .result r :: st.trace dec events

/-- The cache, if there is one, holds what the device holds. -/
def OpenFs.Sound (fs : OpenFs) : Prop :=
  ∀ c ∈ fs.cache, nodeCache.Sound (answers fs.store.dev fs.store.sb) c.nodes

variable {dec : Decoders} {fs : OpenFs}

theorem sound_nil (o : Question → Answer) : nodeCache.Sound o ([] : Nodes) := by
  intro q r h
  cases q <;> cases h

/-- The reader a call gets is sound, and the filesystem is the same but for the cache. -/
theorem OpenFs.Sound.reader (h : fs.Sound) :
    nodeCache.Sound (answers fs.store.dev fs.store.sb) fs.reader.1.nodes ∧
      fs.reader.2.store = fs.store := by
  unfold OpenFs.reader
  cases hc : fs.cache with
  | none => exact ⟨sound_nil _, rfl⟩
  | some c =>
    dsimp only
    split_ifs
    · exact ⟨sound_nil _, rfl⟩
    · exact ⟨h c hc, rfl⟩

/-- One read: the reply of the device, and a sound cache again. -/
theorem OpenFs.Sound.read (h : fs.Sound) (rd : Read) :
    (fs.read dec rd).1 = fs.store.read dec rd ∧ (fs.read dec rd).2.store = fs.store ∧
      (fs.read dec rd).2.Sound := by
  obtain ⟨hnodes, hstore⟩ := h.reader
  rw [← hstore] at hnodes
  obtain ⟨heq, hsound⟩ := Ask.runCached_eq hnodes (rd.prog dec fs.reader.2.store)
  unfold OpenFs.read Store.read
  rw [← hstore]
  refine ⟨heq, rfl, ?_⟩
  intro c hc
  cases hc
  exact hsound

/-- One mutator: the same result as on the bare store, and no cache unless nothing happened. -/
theorem OpenFs.Sound.mutate (h : fs.Sound) (m : Mutator) (body : Body) :
    (fs.mutate m body).1 = (fs.store.mutate m body).1 ∧
      (fs.mutate m body).2.store = (fs.store.mutate m body).2 ∧ (fs.mutate m body).2.Sound := by
  unfold OpenFs.mutate Store.mutate
  cases m.refused with
  | some e => exact ⟨rfl, rfl, h⟩
  | none => exact ⟨rfl, rfl, nofun⟩

theorem OpenFs.Sound.trace (h : fs.Sound) (events : List Event) :
    fs.trace dec events = fs.store.trace dec events := by
  induction events generalizing fs with
  | nil => rfl
  | cons event events ih =>
    cases event with
    | read rd =>
      obtain ⟨hreply, hstore, hsound⟩ := h.read rd
      rw [OpenFs.trace, Store.trace]
      dsimp only
      rw [hreply, ih hsound, hstore]
    | mutate m body =>
      obtain ⟨hresult, hstore, hsound⟩ := h.mutate m body
      rw [OpenFs.trace, Store.trace]
      dsimp only
      rw [hresult, ih hsound, hstore]

/-- **The node cache is transparent**: from a filesystem that was just opened, every sequence of
    calls returns what it returns without a cache. -/
theorem nodeCache_transparent (dec : Decoders) (st : Store) (events : List Event) :
    (⟨st, none⟩ : OpenFs).trace dec events = st.trace dec events := by
  have h : OpenFs.Sound ⟨st, none⟩ := by
    intro c hc
    cases hc
  exact h.trace events

end Btrfs.Raw
