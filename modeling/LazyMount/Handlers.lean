import LazyMount.Projection

/-! The handlers of the projection as sequences of atomic steps, in the order of the source. -/

namespace LazyMount

/-- A call of `object_size` or `blob_to_file`, as if nothing was in the caches in front of them. -/
inductive Fetch where
  | objectSize (oid : ObjectId)
  | blobToFile (oid : ObjectId)
deriving DecidableEq

/-- What an atomic step of a handler is about. -/
inductive Action where
  | read
  | fetch (blob : Fetch)
  | record (path : RepoPath)
  | mutate
  | inode
deriving DecidableEq

namespace World

def fresh (pid : Nat) (journal : Option (State × JournalDir)) : World :=
  ⟨Overlay.fresh pid, InodeTable.new, journal⟩

def pathOf (w : World) (ino : Nat) : Except Error RepoPath :=
  if ino = rootIno then .ok RepoPath.root
  else
    match w.inodes.pathOf ino with
    | some path => .ok path
    | none => .error (internal s!"stale inode {ino}")

end World

abbrev Handler (α : Type) := Prog Action World Error α

namespace Handler

def pathOf (ino : Nat) : Handler RepoPath := .read .read fun w => w.pathOf ino

def lookupEntry (path : RepoPath) : Handler (Option OverlayEntry) :=
  .read .read fun w => .ok (w.overlay.lookup path)

def openContent (path : RepoPath) : Handler ContentId :=
  .read .read fun w => w.overlay.openContent path

def mutate (op : OverlayOp) : Handler Unit :=
  .atom .mutate (fun w => { w with overlay := w.overlay.step op }) fun _ => .ok ()

/-- `Overlay::create_file` returns a descriptor of the new content file. -/
def createFile (path : RepoPath) (executable : Bool) (seed : Option Bytes) : Handler ContentId :=
  .atom .mutate (fun w => { w with overlay := w.overlay.step (.createFile path executable seed) })
    fun w => .ok w.overlay.newContentId

def setExecutableBit (path : RepoPath) (exec : Bool) : Handler Unit :=
  .atom .mutate (fun w => { w with overlay := w.overlay.step (.setExecutable path exec) })
    fun w => (w.overlay.setExecutable path exec).map fun _ => ()

def editContent (content : ContentId) (edit : Bytes → Bytes) : Handler Unit :=
  .atom .mutate (fun w => { w with overlay := w.overlay.editContent content edit })
    fun _ => .ok ()

def inodeLookup (path : RepoPath) : Handler (Nat × Nat) :=
  .atom .inode (fun w => { w with inodes := (w.inodes.lookup path).2 })
    fun w => .ok (w.inodes.lookup path).1

def inodeForget (ino n : Nat) : Handler Unit :=
  .atom .inode (fun w => { w with inodes := w.inodes.forget ino n }) fun _ => .ok ()

def inodeUnlink (path : RepoPath) : Handler Unit :=
  .atom .inode (fun w => { w with inodes := w.inodes.unlink path }) fun _ => .ok ()

def inodeRename (old new : RepoPath) : Handler Unit :=
  .atom .inode (fun w => { w with inodes := w.inodes.rename old new }) fun _ => .ok ()

end Handler

def renameNoreplace : UInt32 := 1

def renameExchange : UInt32 := 2

def protectedGitfile : Error := ⟨.authentication, "the .git entry is protected"⟩

namespace Projection

open Handler

variable (P : Projection)

def resolveStep (path : RepoPath) : Handler (Option Resolved) :=
  .read .read fun w => P.resolve w.overlay path

def baselineResolveStep (path : RepoPath) : Handler (Option Resolved) :=
  .read .read fun _ => P.baselineResolve path

/-- `materialize_path`: the bytes of the blob's cache file. -/
def materialize (oid : ObjectId) : Handler Bytes :=
  .read (.fetch (.blobToFile oid)) fun _ => P.store.readBlobRaw oid

/-- `cached_size` -/
def cachedSize (oid : ObjectId) : Handler Nat :=
  .read (.fetch (.objectSize oid)) fun _ => P.store.objectSize oid

/-- The append under the journal's lock; nothing if no journal is attached. -/
def recordChangeFile (path : RepoPath) : Handler Unit :=
  .atom (.record path)
    (fun w => { w with journal := w.journal.map fun j => record P.limits j.1 j.2 path.bytes })
    fun _ => .ok ()

def recordChange (path : RepoPath) : Handler Unit := do
  P.recordChangeFile path
  match path.parent with
  | some parent => if parent.isRoot then pure () else P.recordChangeFile parent
  | none => pure ()

/-- The root `.git` is protected. -/
def childPath (parentIno : Nat) (name : Bytes) : Handler RepoPath := do
  let parent ← pathOf parentIno
  let path ← .liftExcept (join parent name)
  if path.components = [gitfileName] then .fail protectedGitfile else pure path

def attrOf (ino generation : Nat) : Resolved → Handler Attr
  | .dir _ => pure ⟨ino, generation, 0, .dir⟩
  | .gitfile => pure ⟨ino, generation, P.gitfile.length, .file false⟩
  | .file (.overlay path) executable => do
    let size ← .read .read fun w => w.overlay.contentSize path
    pure ⟨ino, generation, size, .file executable⟩
  | .file (.baseline oid) executable => do
    let size ← P.cachedSize oid
    pure ⟨ino, generation, size, .file executable⟩
  | .symlink (.overlay target) => pure ⟨ino, generation, target.length, .symlink⟩
  | .symlink (.baseline oid) => do
    let size ← P.cachedSize oid
    pure ⟨ino, generation, size, .symlink⟩

def lookup (parentIno : Nat) (name : Bytes) : Handler (Option Attr) := do
  let parent ← pathOf parentIno
  let child ← .liftExcept (join parent name)
  match ← P.resolveStep child with
  | some r => do
    let (ino, generation) ← inodeLookup child
    let attr ← P.attrOf ino generation r
    pure (some attr)
  | none => pure none

def getattr (ino : Nat) : Handler Attr := do
  let path ← pathOf ino
  match ← P.resolveStep path with
  | some r => do
    let (_, generation) ← inodeLookup path
    P.attrOf ino generation r
  | none => .fail (internal s!"inode {ino} vanished")

def push (path : RepoPath) (name : Bytes) (kind : Kind) : Handler (Option DirEntry) := do
  let child ← .liftExcept (join path name)
  let (ino, _) ← inodeLookup child
  pure (some ⟨name, kind, ino⟩)

def listBaseline (path : RepoPath) (e : TreeEntry) : Handler (Option DirEntry) :=
  if path.isRoot ∧ e.name = gitfileName then pure none
  else do
    let child ← .liftExcept (join path e.name)
    match ← lookupEntry child with
    | some _ => pure none
    | none => push path e.name e.mode.kind

def listOverlay (path : RepoPath) (child : Bytes × OverlayEntry) : Handler (Option DirEntry) :=
  match child.2 with
  | .tombstone => pure none
  | .file _ executable => push path child.1 (.file executable)
  | .symlink _ => push path child.1 .symlink
  | .dir => push path child.1 .dir
  | .baseRef _ mode => push path child.1 mode.kind

def readdir (ino : Nat) : Handler (List DirEntry) := do
  let path ← pathOf ino
  match ← P.resolveStep path with
  | some (.dir baselineTree) => do
    let entries ← .read .read fun _ => P.treeEntries baselineTree
    let baseline ← .collect entries (listBaseline path)
    let children ← .read .read fun w => .ok (P.children w.overlay path)
    let overlay ← .collect children (listOverlay path)
    let gitfile ← (if path.isRoot then push path gitfileName (.file false) else pure none)
    pure (baseline ++ overlay ++ gitfile.toList)
  | _ => .fail (internal "not a directory")

def create (parentIno : Nat) (name : Bytes) (executable : Bool) : Handler (Attr × ContentId) := do
  let path ← childPath parentIno name
  P.recordChange path
  let content ← createFile path executable none
  let (ino, generation) ← inodeLookup path
  pure (⟨ino, generation, 0, .file executable⟩, content)

def openWrite (ino : Nat) (truncate : Bool) : Handler ContentId := do
  let path ← pathOf ino
  P.recordChangeFile path
  match ← lookupEntry path with
  | some (.file _ _) => do
    let content ← openContent path
    .whenever truncate (editContent content (setLen 0))
    pure content
  | _ =>
    match ← P.resolveStep path with
    | some (.file (.baseline oid) executable) => do
      let seed ← (if truncate then pure none else some <$> P.materialize oid)
      createFile path executable seed
    | _ => .fail (internal "not a writable file")

def truncate (ino size : Nat) : Handler Unit := do
  let path ← pathOf ino
  match ← lookupEntry path with
  | some (.file _ _) => do
    P.recordChangeFile path
    let content ← openContent path
    editContent content (setLen size)
  | _ =>
    match ← P.resolveStep path with
    | some (.file (.baseline oid) executable) => do
      P.recordChangeFile path
      let seed ← (if size = 0 then pure none else some <$> P.materialize oid)
      let content ← createFile path executable seed
      editContent content (setLen size)
    | _ => .fail (internal "not a file")

/-- The end of `unlink` and `rmdir`: mask a baseline path, else drop the overlay entry. -/
def removeName (path : RepoPath) (onBaseline : Bool) : Handler Unit := do
  P.recordChange path
  mutate (if onBaseline then .tombstone path else .clear path)
  inodeUnlink path

def unlink (parentIno : Nat) (name : Bytes) : Handler Unit := do
  let path ← childPath parentIno name
  let baseline ← P.baselineResolveStep path
  if baseline.isSome then P.removeName path true
  else
    match ← lookupEntry path with
    | none => .fail ⟨.notFound, "no such file"⟩
    | some _ => P.removeName path false

def mkdir (parentIno : Nat) (name : Bytes) : Handler Attr := do
  let path ← childPath parentIno name
  match ← P.resolveStep path with
  | some _ => .fail ⟨.alreadyExists, "exists"⟩
  | none => do
    P.recordChange path
    mutate (.putDir path)
    let (ino, generation) ← inodeLookup path
    pure ⟨ino, generation, 0, .dir⟩

def rmdir (parentIno : Nat) (name : Bytes) : Handler Unit := do
  let path ← childPath parentIno name
  if ← .read .read fun w => P.dirIsEmpty w.overlay path then
    let baseline ← .read .read fun _ => P.baselineTreeAt path
    if baseline.isSome then P.removeName path true
    else
      match ← lookupEntry path with
      | none => .fail ⟨.notFound, "no such directory"⟩
      | some _ => P.removeName path false
  else .fail ⟨.dirtyWorkspaceConflict, "not empty"⟩

def symlink (parentIno : Nat) (name target : Bytes) : Handler Attr := do
  let path ← childPath parentIno name
  P.recordChange path
  mutate (.putSymlink path target)
  let (ino, generation) ← inodeLookup path
  pure ⟨ino, generation, target.length, .symlink⟩

def moveChild (cs cd : RepoPath) : Resolved → Option OverlayOp
  | .file (.overlay _) _ | .symlink (.overlay _) => some (.rename cs cd)
  | .file (.baseline oid) executable =>
    some (.putBaseRef cd oid (if executable then .executable else .regular))
  | .symlink (.baseline oid) => some (.putBaseRef cd oid .symlink)
  | .dir _ | .gitfile => none

/-- The recursion of the source has no bound; `fuel` is how deep the model follows it. -/
def renameDir : Nat → RepoPath → RepoPath → Handler Unit
  | 0, _, _ => .diverge
  | fuel + 1, src, dst => do
    mutate (.putDir dst)
    let kids ← .read .read fun w => P.effectiveChildren w.overlay src
    .each kids fun kid => do
      let cs ← .liftExcept (join src kid.1)
      let cd ← .liftExcept (join dst kid.1)
      if kid.2.isDir then renameDir fuel cs cd
      else
        match moveChild cs cd kid.2 with
        | some op => do
          mutate op
          inodeRename cs cd
        | none => pure ()
    mutate (.tombstone src)
    inodeRename src dst

def renameFile (src dst : RepoPath) : Handler Unit := do
  match ← lookupEntry src with
  | some _ => do
    mutate (.rename src dst)
    let baseline ← P.baselineResolveStep src
    .whenever baseline.isSome (mutate (.tombstone src))
    inodeRename src dst
  | none =>
    match ← P.baselineResolveStep src with
    | some (.file (.baseline oid) executable) => do
      mutate (.putBaseRef dst oid (if executable then .executable else .regular))
      mutate (.tombstone src)
      inodeRename src dst
    | some (.symlink (.baseline oid)) => do
      mutate (.putBaseRef dst oid .symlink)
      mutate (.tombstone src)
      inodeRename src dst
    | _ => .fail ⟨.notFound, "no such file"⟩

def rename (fuel parentIno : Nat) (name : Bytes) (newparentIno : Nat) (newname : Bytes)
    (flags : UInt32) : Handler Unit := do
  let src ← childPath parentIno name
  let dst ← childPath newparentIno newname
  if flags &&& renameExchange ≠ 0 then
    .fail ⟨.unsupportedOperation, "RENAME_EXCHANGE is not supported"⟩
  else
    let occupied ←
      (if flags &&& renameNoreplace ≠ 0 then Option.isSome <$> P.resolveStep dst else pure false)
    if occupied then .fail ⟨.alreadyExists, "destination exists"⟩
    else
      P.recordChange src
      P.recordChange dst
      match ← P.resolveStep src with
      | some (.dir _) => P.renameDir fuel src dst
      | _ => P.renameFile src dst

def setExecutable (ino : Nat) (exec : Bool) : Handler Unit := do
  let path ← pathOf ino
  P.recordChangeFile path
  match ← lookupEntry path with
  | some (.file _ _) => setExecutableBit path exec
  | _ =>
    match ← P.resolveStep path with
    | some (.file (.baseline oid) _) => do
      let seed ← P.materialize oid
      let _ ← createFile path exec (some seed)
      pure ()
    | _ => .fail (internal "not a file")

end Projection

inductive Op where
  | lookup (parent : Nat) (name : Bytes)
  | getattr (ino : Nat)
  | readdir (ino : Nat)
  | forget (ino n : Nat)
  | create (parent : Nat) (name : Bytes) (executable : Bool)
  | openWrite (ino : Nat) (truncate : Bool)
  | truncate (ino size : Nat)
  | unlink (parent : Nat) (name : Bytes)
  | mkdir (parent : Nat) (name : Bytes)
  | rmdir (parent : Nat) (name : Bytes)
  | symlink (parent : Nat) (name target : Bytes)
  | rename (parent : Nat) (name : Bytes) (newparent : Nat) (newname : Bytes) (flags : UInt32)
  | setExecutable (ino : Nat) (exec : Bool)
deriving DecidableEq

inductive Reply where
  | unit
  | attr (attr : Option Attr)
  | entries (entries : List DirEntry)
  | opened (attr : Option Attr) (content : ContentId)
deriving DecidableEq

def Op.handler (P : Projection) (fuel : Nat) : Op → Handler Reply
  | .lookup parent name => .attr <$> P.lookup parent name
  | .getattr ino => (.attr ∘ some) <$> P.getattr ino
  | .readdir ino => .entries <$> P.readdir ino
  | .forget ino n => (fun _ => .unit) <$> Handler.inodeForget ino n
  | .create parent name executable =>
    (fun r => .opened (some r.1) r.2) <$> P.create parent name executable
  | .openWrite ino trunc => .opened none <$> P.openWrite ino trunc
  | .truncate ino size => (fun _ => .unit) <$> P.truncate ino size
  | .unlink parent name => (fun _ => .unit) <$> P.unlink parent name
  | .mkdir parent name => (.attr ∘ some) <$> P.mkdir parent name
  | .rmdir parent name => (fun _ => .unit) <$> P.rmdir parent name
  | .symlink parent name target => (.attr ∘ some) <$> P.symlink parent name target
  | .rename parent name newparent newname flags =>
    (fun _ => .unit) <$> P.rename fuel parent name newparent newname flags
  | .setExecutable ino exec => (fun _ => .unit) <$> P.setExecutable ino exec

/-- An operation that returns, in its own time. -/
def Projection.Step (P : Projection) (w : World) (op : Op) (w' : World) : Prop :=
  ∃ fuel r, (op.handler P fuel).run w = (r, w') ∧ r ≠ .diverge

/-! A small repository: a tree with the file `a` and the directory `d` that holds the file `f`,
and a later one with `a` and `f`; every blob holds the byte `x`. -/

def smallStore : GitStore where
  readTree oid :=
    if oid.raw = [1] then .ok [⟨[97], .regular, ⟨[3]⟩⟩, ⟨[100], .tree, ⟨[2]⟩⟩]
    else if oid.raw = [2] then .ok [⟨[102], .regular, ⟨[3]⟩⟩]
    else if oid.raw = [4] then .ok [⟨[97], .regular, ⟨[3]⟩⟩, ⟨[102], .regular, ⟨[3]⟩⟩]
    else .error ⟨.offlineMissingObject, "object not found"⟩
  readBlobRaw _ := .ok [120]
  objectSize _ := .ok 1

noncomputable def setOrder (s : Finset Bytes) : List Bytes := if s = ∅ then [] else s.toList

theorem mem_setOrder {s : Finset Bytes} {name : Bytes} : name ∈ setOrder s ↔ name ∈ s := by
  rw [setOrder]
  split
  · simp_all
  · exact Finset.mem_toList

theorem nodup_setOrder (s : Finset Bytes) : (setOrder s).Nodup := by
  rw [setOrder]
  split
  · exact List.nodup_nil
  · exact Finset.nodup_toList _

noncomputable def smallProjection : Projection where
  store := smallStore
  baselineTree := ⟨[1]⟩
  gitfile := []
  limits := smallLimits
  hashOrder idx parent := setOrder (idx.children parent)
  nodup_hashOrder _ _ := nodup_setOrder _
  mem_hashOrder _ _ _ := mem_setOrder

/-- `x` comes first. -/
noncomputable def xFirst (s : Finset Bytes) : List Bytes :=
  (if [120] ∈ s then [[120]] else []) ++ setOrder (s.erase [120])

noncomputable def xFirstProjection (store : GitStore) : Projection where
  store := store
  baselineTree := ⟨[1]⟩
  gitfile := []
  limits := smallLimits
  hashOrder idx parent := xFirst (idx.children parent)
  nodup_hashOrder idx parent := by
    rw [xFirst, List.nodup_append]
    refine ⟨by split <;> simp, nodup_setOrder _, fun a ha b hb heq => ?_⟩
    subst heq
    split at ha
    · rw [List.mem_singleton.mp ha] at hb
      simpa using mem_setOrder.mp hb
    · cases ha
  mem_hashOrder idx parent name := by
    rw [xFirst, List.mem_append, mem_setOrder, Finset.mem_erase]
    by_cases hn : name = [120]
    · subst hn
      simp
    · split <;> simp [hn]

def dx : RepoPath := RepoPath.ofComponents [[100], [120]] (by decide)

end LazyMount
