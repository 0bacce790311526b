import LazyMount.InodeTable
import LazyMount.Journal
import LazyMount.Lib.Prog
import LazyMount.Overlay

/-! The projection: the overlay over the baseline tree, and its handlers as sequences of atomic
steps. Only what reads is one step however much it reads; the caches keep nothing that a read
does not return, and are left out with the modification times. -/

namespace LazyMount

structure TreeEntry where
  name : Bytes
  mode : GitMode
  oid : ObjectId
deriving DecidableEq, Repr

/-- What `git cat-file` answers for an object name. -/
structure GitStore where
  readTree : ObjectId → Except Error (List TreeEntry)
  readBlobRaw : ObjectId → Except Error Bytes
  objectSize : ObjectId → Except Error Nat

/-- `GITFILE_NAME`, `".git"` -/
def gitfileName : Bytes := [46, 103, 105, 116]

inductive Kind where
  | dir
  | file (executable : Bool)
  | symlink
deriving DecidableEq, Repr

structure Attr where
  ino : Nat
  generation : Nat
  size : Nat
  kind : Kind
deriving DecidableEq, Repr

structure DirEntry where
  name : Bytes
  kind : Kind
  ino : Nat
deriving DecidableEq, Repr

inductive FileSource where
  | overlay (path : RepoPath)
  | baseline (oid : ObjectId)
deriving DecidableEq

inductive SymSource where
  | overlay (target : Bytes)
  | baseline (oid : ObjectId)
deriving DecidableEq

inductive Resolved where
  | dir (baselineTree : Option ObjectId)
  | file (source : FileSource) (executable : Bool)
  | symlink (source : SymSource)
  | gitfile
deriving DecidableEq

inductive Node where
  | dir
  | file (executable : Bool) (bytes : Bytes)
  | symlink (target : Bytes)
deriving DecidableEq, Repr

def Resolved.isDir : Resolved → Bool
  | .dir _ => true
  | _ => false

theorem Resolved.eq_dir {r : Resolved} (h : r.isDir = true) : ∃ bt, r = .dir bt := by
  cases r with
  | dir bt => exact ⟨bt, rfl⟩
  | file | symlink | gitfile => cases h

theorem Resolved.isDir_eq_false {r : Resolved} (h : ∀ bt, r ≠ .dir bt) : r.isDir = false := by
  rw [← Bool.not_eq_true]
  intro hdir
  obtain ⟨bt, rfl⟩ := eq_dir hdir
  exact h bt rfl

def baserefResolved (oid : ObjectId) : GitMode → Resolved
  | .symlink => .symlink (.baseline oid)
  | .executable => .file (.baseline oid) true
  | _ => .file (.baseline oid) false

def GitMode.kind : GitMode → Kind
  | .tree | .gitlink => .dir
  | .regular => .file false
  | .executable => .file true
  | .symlink => .symlink

/-- The loop of `baseline_resolve` over the components that are left. -/
def GitStore.walk (store : GitStore) (tree : ObjectId) : List Bytes → Except Error (Option Resolved)
  | [] => .ok none
  | comp :: rest => do
    let entries ← store.readTree tree
    match entries.find? (fun e => e.name = comp) with
    | none => .ok none
    | some entry =>
      match entry.mode with
      | .tree => if rest = [] then .ok (some (.dir (some entry.oid))) else store.walk entry.oid rest
      | .gitlink => .ok (if rest = [] then some (.dir (some entry.oid)) else none)
      | .regular => .ok (if rest = [] then some (.file (.baseline entry.oid) false) else none)
      | .executable => .ok (if rest = [] then some (.file (.baseline entry.oid) true) else none)
      | .symlink => .ok (if rest = [] then some (.symlink (.baseline entry.oid)) else none)

/-- The parts of a projection that no handler changes. `hashOrder` is the order in which the
hash map of children is iterated. -/
structure Projection where
  store : GitStore
  baselineTree : ObjectId
  gitfile : Bytes
  limits : Limits
  hashOrder : Index → RepoPath → List Bytes
  nodup_hashOrder : ∀ idx parent, (hashOrder idx parent).Nodup
  mem_hashOrder : ∀ idx parent name, name ∈ hashOrder idx parent ↔ name ∈ idx.children parent

/-- The parts that handlers change; the journal is there if one is attached. -/
structure World where
  overlay : Overlay
  inodes : InodeTable
  journal : Option (State × JournalDir)

def invalidPath (e : PathError) : Error := ⟨.invalidRepositoryPath, e.message⟩

def internal (summary : String) : Error := ⟨.internal, summary⟩

namespace Overlay

/-- The while-let loop over ancestors; `n` bounds how many there are. -/
def tombstonedFrom (ov : Overlay) : Nat → Option RepoPath → Bool
  | n + 1, some p =>
    if p.isRoot then false
    else if ov.lookup p = some .tombstone then true
    else ov.tombstonedFrom n p.parent
  | _, _ => false

def ancestorTombstoned (ov : Overlay) (path : RepoPath) : Bool :=
  ov.tombstonedFrom path.components.length path.parent

def openContent (ov : Overlay) (path : RepoPath) : Except Error ContentId :=
  match ov.lookup path with
  | some (.file content _) =>
    if (ov.disk.content content).isSome then .ok content
    else .error (internal "open overlay content")
  | _ => .error notAnOverlayFile

def contentSize (ov : Overlay) (path : RepoPath) : Except Error Nat :=
  match ov.lookup path with
  | some (.file content _) =>
    match ov.disk.content content with
    | some bytes => .ok bytes.length
    | none => .error (internal "stat overlay content")
  | _ => .error notAnOverlayFile

def readContent (ov : Overlay) (path : RepoPath) : Except Error Bytes := do
  let content ← ov.openContent path
  .ok ((ov.disk.content content).getD [])

/-- A change through a descriptor of the content file; if the file is gone from the directory,
only the descriptor's own inode changes. -/
def editContent (ov : Overlay) (content : ContentId) (edit : Bytes → Bytes) : Overlay :=
  match ov.disk.content content with
  | some bytes => { ov with disk := ov.disk.exec (.writeContent content (edit bytes)) }
  | none => ov

end Overlay

def setLen (size : Nat) (bytes : Bytes) : Bytes :=
  bytes.take size ++ List.replicate (size - bytes.length) 0

/-- `write_at`; a gap reads as zeros, and a write of nothing leaves the file alone. -/
def writeAt (offset : Nat) (data bytes : Bytes) : Bytes :=
  if data = [] then bytes else setLen offset bytes ++ data ++ bytes.drop (offset + data.length)

namespace Projection

variable (P : Projection)

def baselineResolve (path : RepoPath) : Except Error (Option Resolved) :=
  P.store.walk P.baselineTree path.components

def baselineTreeAt (path : RepoPath) : Except Error (Option ObjectId) := do
  match ← P.baselineResolve path with
  | some (.dir baselineTree) => .ok baselineTree
  | _ => .ok none

def entryResolved (path : RepoPath) : OverlayEntry → Except Error (Option Resolved)
  | .file _ executable => .ok (some (.file (.overlay path) executable))
  | .symlink target => .ok (some (.symlink (.overlay target)))
  | .dir => do .ok (some (.dir (← P.baselineTreeAt path)))
  | .tombstone => .ok none
  | .baseRef oid mode => .ok (some (baserefResolved oid mode))

def resolve (ov : Overlay) (path : RepoPath) : Except Error (Option Resolved) :=
  if path.isRoot then .ok (some (.dir (some P.baselineTree)))
  else if path.components = [gitfileName] then .ok (some .gitfile)
  else
    match ov.lookup path with
    | some e => P.entryResolved path e
    | none => if ov.ancestorTombstoned path then .ok none else P.baselineResolve path

def join (dir : RepoPath) (name : Bytes) : Except Error RepoPath :=
  (dir.join name).mapError invalidPath

/-- `Overlay::children` -/
def children (ov : Overlay) (parent : RepoPath) : List (Bytes × OverlayEntry) :=
  (P.hashOrder ov.index parent).filterMap fun name =>
    match parent.join name with
    | .ok child => (ov.lookup child).map (name, ·)
    | .error _ => none

def treeEntries : Option ObjectId → Except Error (List TreeEntry)
  | some tree => P.store.readTree tree
  | none => .ok []

def allTombstoned (ov : Overlay) (path : RepoPath) : List TreeEntry → Except Error Bool
  | [] => .ok true
  | e :: entries => do
    let child ← join path e.name
    if ov.lookup child = some .tombstone then allTombstoned ov path entries else .ok false

def dirIsEmpty (ov : Overlay) (path : RepoPath) : Except Error Bool := do
  let entries ← P.treeEntries (← P.baselineTreeAt path)
  let baseline ← allTombstoned ov path entries
  .ok (baseline && (P.children ov path).all (·.2 = .tombstone))

def undecidedNames (ov : Overlay) (dir : RepoPath) : List TreeEntry → Except Error (List Bytes)
  | [] => .ok []
  | e :: entries => do
    let child ← join dir e.name
    let names ← undecidedNames ov dir entries
    .ok (if (ov.lookup child).isSome then names else e.name :: names)

def effectiveNames (ov : Overlay) (dir : RepoPath) (entries : List TreeEntry) :
    Except Error (List Bytes) := do
  let names ← undecidedNames ov dir entries
  let overlayNames := ((P.children ov dir).filter (·.2 ≠ .tombstone)).map (·.1)
  .ok (names ++ overlayNames).eraseDups

def resolveAll (ov : Overlay) (dir : RepoPath) : List Bytes → Except Error (List (Bytes × Resolved))
  | [] => .ok []
  | name :: names => do
    let child ← join dir name
    let r ← P.resolve ov child
    let out ← resolveAll ov dir names
    .ok ((r.map (name, ·)).toList ++ out)

def effectiveChildren (ov : Overlay) (dir : RepoPath) : Except Error (List (Bytes × Resolved)) := do
  match ← P.resolve ov dir with
  | some (.dir baselineTree) => do
    let entries ← P.treeEntries baselineTree
    P.resolveAll ov dir (← P.effectiveNames ov dir entries)
  | _ => .error (internal "not a directory")

/-- What a reader of the mount sees at a path that resolves to this: kind, mode and bytes. -/
def nodeOf (ov : Overlay) : Resolved → Except Error Node
  | .dir _ => .ok .dir
  | .gitfile => .ok (.file false P.gitfile)
  | .file (.overlay path) executable => do .ok (.file executable (← ov.readContent path))
  | .file (.baseline oid) executable => do .ok (.file executable (← P.store.readBlobRaw oid))
  | .symlink (.overlay target) => .ok (.symlink target)
  | .symlink (.baseline oid) => do .ok (.symlink (← P.store.readBlobRaw oid))

def seen (ov : Overlay) : Except Error (Option Resolved) → Except Error (Option Node)
  | .ok none => .ok none
  | .ok (some r) => do .ok (some (← P.nodeOf ov r))
  | .error e => .error e

def visible (ov : Overlay) (path : RepoPath) : Except Error (Option Node) :=
  P.seen ov (P.resolve ov path)

end Projection

end LazyMount
