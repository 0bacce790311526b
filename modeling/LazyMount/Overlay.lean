import LazyMount.Error
import LazyMount.RepoPath
import Mathlib.Data.Finset.Basic
import Mathlib.Data.Set.Finite.Basic
import Mathlib.Logic.Function.Basic

/-! The durable overlay: one sidecar file per path, native content files, and the index that
`Overlay::open` rebuilds. Every mutator is a list of file operations followed by one update
of the index. -/

namespace LazyMount

structure ObjectId where
  raw : Bytes
deriving DecidableEq, Repr

inductive GitMode where
  | regular
  | executable
  | symlink
  | tree
  | gitlink
deriving DecidableEq, Repr

/-- The content file name `c<pid>-<seq>`. -/
structure ContentId where
  pid : Nat
  seq : Nat
deriving DecidableEq, Repr

inductive OverlayEntry where
  | file (content : ContentId) (executable : Bool)
  | symlink (target : Bytes)
  | dir
  | tombstone
  | baseRef (oid : ObjectId) (mode : GitMode)
deriving DecidableEq, Repr

structure Sidecar where
  path : Bytes
  entry : OverlayEntry
deriving DecidableEq, Repr

/-- The files of the meta directory, each named after its path: `<id>.json` and `<id>.tmp`. -/
inductive MetaName where
  | sidecar (path : RepoPath)
  | tmp (path : RepoPath)
deriving DecidableEq

/-- The bytes of a meta file, as `serde_json` reads them back. -/
inductive MetaFile where
  | torn
  | parsed (sc : Sidecar)
deriving DecidableEq, Repr

def MetaFile.entry : MetaFile → Option OverlayEntry
  | .torn => none
  | .parsed sc => some sc.entry

def MetaName.path : MetaName → RepoPath
  | .sidecar p => p
  | .tmp p => p

/-- The overlay directory: finitely many meta files, and each that parses carries the path it
is named after. -/
structure Disk where
  metaFiles : MetaName → Option MetaFile
  content : ContentId → Option Bytes
  finite : {name | (metaFiles name).isSome}.Finite
  named : ∀ name sc, metaFiles name = some (.parsed sc) → sc.path = name.path.bytes

/-- One file operation. `writeTmp` writes the sidecar of `path` with `entry`. -/
inductive FileOp where
  | createContent (content : ContentId)
  | writeContent (content : ContentId) (bytes : Bytes)
  | removeContent (content : ContentId)
  | createTmp (path : RepoPath)
  | writeTmp (path : RepoPath) (entry : OverlayEntry)
  | renameTmp (path : RepoPath)
  | removeSidecar (path : RepoPath)
deriving DecidableEq

namespace Disk

def empty : Disk := ⟨fun _ => none, fun _ => none, by simp, by simp⟩

def setContent (d : Disk) (c : ContentId) (bytes : Option Bytes) : Disk :=
  { d with content := Function.update d.content c bytes }

def setMeta (d : Disk) (name : MetaName) (file : Option MetaFile)
    (h : ∀ sc, file = some (.parsed sc) → sc.path = name.path.bytes) : Disk where
  metaFiles := Function.update d.metaFiles name file
  content := d.content
  finite := by
    refine (d.finite.insert name).subset fun n hn => ?_
    by_cases hne : n = name
    · exact .inl hne
    · rw [Set.mem_ofPred_eq, Function.update_of_ne hne] at hn
      exact .inr hn
  named n sc hn := by
    by_cases hne : n = name
    · subst hne
      exact h sc (by simpa using hn)
    · rw [Function.update_of_ne hne] at hn
      exact d.named n sc hn

/-- A file operation that succeeds. `File::create` truncates. -/
def exec (d : Disk) : FileOp → Disk
  | .createContent c => d.setContent c (some [])
  | .writeContent c bytes => d.setContent c (some bytes)
  | .removeContent c => d.setContent c none
  | .createTmp p => d.setMeta (.tmp p) (some .torn) (by simp)
  | .writeTmp p entry => d.setMeta (.tmp p) (some (.parsed ⟨p.bytes, entry⟩))
      (by rintro sc ⟨rfl⟩; rfl)
  | .renameTmp p => (d.setMeta (.sidecar p) (d.metaFiles (.tmp p))
      (fun sc h => by simpa [MetaName.path] using d.named (.tmp p) sc h)).setMeta (.tmp p) none (by simp)
  | .removeSidecar p => d.setMeta (.sidecar p) none (by simp)

def execAll (d : Disk) (ops : List FileOp) : Disk := ops.foldl exec d

def fileEntry (d : Disk) (name : MetaName) : Option OverlayEntry :=
  (d.metaFiles name).bind MetaFile.entry

end Disk

/-- The in-memory maps, path to entry and parent to the names of its children; a name is
listed as long as its path has an entry. -/
structure Index where
  entries : RepoPath → Option OverlayEntry
  children : RepoPath → Finset Bytes
  mem_children : ∀ parent name, name ∈ children parent ↔
    ∃ path, path.components = parent.components ++ [name] ∧ (entries path).isSome

namespace Index

def empty : Index := ⟨fun _ => none, fun _ => ∅, by simp⟩

def insertChildren (idx : Index) (path : RepoPath) : RepoPath → Finset Bytes :=
  match path.parent, path.fileName with
  | some parent, some name =>
    Function.update idx.children parent (Insert.insert name (idx.children parent))
  | _, _ => idx.children

def removeChildren (idx : Index) (path : RepoPath) : RepoPath → Finset Bytes :=
  match path.parent, path.fileName with
  | some parent, some name =>
    Function.update idx.children parent ((idx.children parent).erase name)
  | _, _ => idx.children

theorem mem_insertChildren {idx : Index} {path parent : RepoPath} {name : Bytes} :
    name ∈ idx.insertChildren path parent ↔
      name ∈ idx.children parent ∨ path.components = parent.components ++ [name] := by
  rcases path.eq_root_or_concat with rfl | ⟨cs, c, hc⟩
  · simp [insertChildren, RepoPath.parent_root]
  · obtain ⟨q, hq, hqc⟩ := RepoPath.parent_of_components hc
    simp only [insertChildren, hq, RepoPath.fileName_of_components hc]
    by_cases hp : parent = q
    · subst hp
      simp [hc, hqc, or_comm, eq_comm]
    · have hne : path.components ≠ parent.components ++ [name] := by
        rw [hc]
        intro h
        exact hp (RepoPath.ext_components (by rw [hqc, (List.append_inj' h rfl).1]))
      simp [Function.update_of_ne hp, hne]

theorem mem_removeChildren {idx : Index} {path parent : RepoPath} {name : Bytes} :
    name ∈ idx.removeChildren path parent ↔
      name ∈ idx.children parent ∧ path.components ≠ parent.components ++ [name] := by
  rcases path.eq_root_or_concat with rfl | ⟨cs, c, hc⟩
  · simp [removeChildren, RepoPath.parent_root]
  · obtain ⟨q, hq, hqc⟩ := RepoPath.parent_of_components hc
    simp only [removeChildren, hq, RepoPath.fileName_of_components hc]
    by_cases hp : parent = q
    · subst hp
      simp [hc, hqc, and_comm, eq_comm]
    · have hne : path.components ≠ parent.components ++ [name] := by
        rw [hc]
        intro h
        exact hp (RepoPath.ext_components (by rw [hqc, (List.append_inj' h rfl).1]))
      simp [Function.update_of_ne hp, hne]

def insert (idx : Index) (path : RepoPath) (entry : OverlayEntry) : Index where
  entries := Function.update idx.entries path (some entry)
  children := idx.insertChildren path
  mem_children parent name := by
    rw [mem_insertChildren, idx.mem_children]
    constructor
    · rintro (⟨p, hp, he⟩ | h)
      · refine ⟨p, hp, ?_⟩
        by_cases hpp : p = path
        · simp [hpp]
        · rwa [Function.update_of_ne hpp]
      · exact ⟨path, h, by simp⟩
    · intro hh
      obtain ⟨p, hp, he⟩ := hh
      by_cases hpp : p = path
      · exact .inr (hpp ▸ hp)
      · rw [Function.update_of_ne hpp] at he
        exact .inl ⟨p, hp, he⟩

def remove (idx : Index) (path : RepoPath) : Index where
  entries := Function.update idx.entries path none
  children := idx.removeChildren path
  mem_children parent name := by
    rw [mem_removeChildren, idx.mem_children]
    constructor
    · intro hh
      obtain ⟨⟨p, hp, he⟩, hne⟩ := hh
      have hpp : p ≠ path := fun h => hne (h ▸ hp)
      exact ⟨p, hp, by rwa [Function.update_of_ne hpp]⟩
    · intro hh
      obtain ⟨p, hp, he⟩ := hh
      by_cases hpp : p = path
      · simp [hpp] at he
      · rw [Function.update_of_ne hpp] at he
        refine ⟨⟨p, hp, he⟩, fun h => hpp (RepoPath.ext_components (hp.trans h.symm))⟩

@[simp] theorem insert_entries (idx : Index) (path : RepoPath) (entry : OverlayEntry) :
    (idx.insert path entry).entries = Function.update idx.entries path (some entry) := rfl

@[simp] theorem remove_entries (idx : Index) (path : RepoPath) :
    (idx.remove path).entries = Function.update idx.entries path none := rfl

@[ext] theorem ext_entries {idx jdx : Index} (h : idx.entries = jdx.entries) : idx = jdx := by
  have hc : idx.children = jdx.children := by
    funext parent
    ext name
    rw [idx.mem_children, jdx.mem_children, h]
  cases idx
  cases jdx
  simp_all

end Index

/-- The overlay directory and the process that has it open: `CONTENT_SEQ` counts from zero in
each process. -/
structure Overlay where
  disk : Disk
  index : Index
  pid : Nat
  contentSeq : Nat

/-- What a mutator does: its file operations in order, then the index it leaves. -/
structure Mutation where
  fileOps : List FileOp
  index : Index
  contentSeq : Nat

namespace Overlay

/-- One directory entry of the scan; what does not parse is skipped. -/
def replay (d : Disk) (idx : Index) (name : MetaName) : Index :=
  match d.metaFiles name with
  | some (.parsed sc) =>
    match RepoPath.fromBytes sc.path with
    | .ok path => idx.insert path sc.entry
    | .error _ => idx
  | _ => idx

/-- `read_dir` returns every file of the meta directory once, in any order. -/
structure ReadDir (d : Disk) (order : List MetaName) : Prop where
  nodup : order.Nodup
  mem : ∀ name, name ∈ order ↔ (d.metaFiles name).isSome

/-- `Overlay::open` by process `pid`; the scan parses every file, whatever its extension. -/
def openDisk (d : Disk) (order : List MetaName) (pid : Nat) : Overlay :=
  ⟨d, order.foldl (replay d) Index.empty, pid, 0⟩

def lookup (ov : Overlay) (path : RepoPath) : Option OverlayEntry := ov.index.entries path

def newContentId (ov : Overlay) : ContentId := ⟨ov.pid, ov.contentSeq⟩

/-- `atomic_write` of the sidecar. -/
def persist (path : RepoPath) (entry : OverlayEntry) : List FileOp :=
  [.createTmp path, .writeTmp path entry, .renameTmp path]

def dropContent (ov : Overlay) (path : RepoPath) : List FileOp :=
  match ov.lookup path with
  | some (.file content _) => [.removeContent content]
  | _ => []

/-- `fs::copy` of the seed, or `File::create`. -/
def copyUp (content : ContentId) : Option Bytes → List FileOp
  | some bytes => [.createContent content, .writeContent content bytes]
  | none => [.createContent content]

def createFile (ov : Overlay) (path : RepoPath) (executable : Bool) (seed : Option Bytes) :
    Mutation :=
  let content := ov.newContentId
  let entry := .file content executable
  { fileOps := copyUp content seed ++ persist path entry
    index := ov.index.insert path entry
    contentSeq := ov.contentSeq + 1 }

def put (ov : Overlay) (path : RepoPath) (entry : OverlayEntry) : Mutation :=
  ⟨persist path entry, ov.index.insert path entry, ov.contentSeq⟩

def putSymlink (ov : Overlay) (path : RepoPath) (target : Bytes) : Mutation :=
  ov.put path (.symlink target)

def putDir (ov : Overlay) (path : RepoPath) : Mutation := ov.put path .dir

def putBaseRef (ov : Overlay) (path : RepoPath) (oid : ObjectId) (mode : GitMode) : Mutation :=
  ov.put path (.baseRef oid mode)

def tombstone (ov : Overlay) (path : RepoPath) : Mutation where
  fileOps := ov.dropContent path ++ persist path .tombstone
  index := ov.index.insert path .tombstone
  contentSeq := ov.contentSeq

def clear (ov : Overlay) (path : RepoPath) : Mutation where
  fileOps := ov.dropContent path ++ [.removeSidecar path]
  index := ov.index.remove path
  contentSeq := ov.contentSeq

def unchanged (ov : Overlay) : Mutation := ⟨[], ov.index, ov.contentSeq⟩

def rename (ov : Overlay) (src dst : RepoPath) : Mutation :=
  match ov.lookup src with
  | none => ov.unchanged
  | some entry =>
    ⟨persist dst entry ++ [.removeSidecar src], (ov.index.insert dst entry).remove src, ov.contentSeq⟩

def notAnOverlayFile : Error := ⟨.internal, "not an overlay file"⟩

def setExecutable (ov : Overlay) (path : RepoPath) (exec : Bool) : Except Error Mutation :=
  match ov.lookup path with
  | some (.file content _) => .ok (ov.put path (.file content exec))
  | _ => .error notAnOverlayFile

def apply (ov : Overlay) (m : Mutation) : Overlay :=
  { ov with disk := ov.disk.execAll m.fileOps, index := m.index, contentSeq := m.contentSeq }

end Overlay

inductive OverlayOp where
  | createFile (path : RepoPath) (executable : Bool) (seed : Option Bytes)
  | putSymlink (path : RepoPath) (target : Bytes)
  | putDir (path : RepoPath)
  | putBaseRef (path : RepoPath) (oid : ObjectId) (mode : GitMode)
  | tombstone (path : RepoPath)
  | clear (path : RepoPath)
  | rename (src dst : RepoPath)
  | setExecutable (path : RepoPath) (exec : Bool)
deriving DecidableEq

namespace Overlay

/-- What an operation does to the overlay; one that returns `Err` does nothing. -/
def mutation (ov : Overlay) : OverlayOp → Mutation
  | .createFile p executable seed => ov.createFile p executable seed
  | .putSymlink p target => ov.putSymlink p target
  | .putDir p => ov.putDir p
  | .putBaseRef p oid mode => ov.putBaseRef p oid mode
  | .tombstone p => ov.tombstone p
  | .clear p => ov.clear p
  | .rename src dst => ov.rename src dst
  | .setExecutable p exec => (ov.setExecutable p exec).toOption.getD ov.unchanged

def step (ov : Overlay) (op : OverlayOp) : Overlay := ov.apply (ov.mutation op)

def run (ov : Overlay) (ops : List OverlayOp) : Overlay := ops.foldl step ov

/-- The disk when the process dies after `cut` file operations of `op`. -/
def crashDisk (ov : Overlay) (op : OverlayOp) (cut : Nat) : Disk :=
  ov.disk.execAll ((ov.mutation op).fileOps.take cut)

def fresh (pid : Nat) : Overlay := openDisk Disk.empty [] pid

end Overlay

end LazyMount
