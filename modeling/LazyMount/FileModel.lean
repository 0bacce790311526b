import LazyMount.CopyUp
import LazyMount.HandlerSpecs
import LazyMount.Mount

/-! A map from path to file or symlink, and the calls on the mount that it is a reference for:
those that leave the directories as they are. -/

namespace LazyMount

open Function (update)
open Handler

inductive Item where
  | file (executable : Bool) (bytes : Bytes)
  | symlink (target : Bytes)
deriving DecidableEq

namespace Item

def kind : Item → Kind
  | file executable _ => .file executable
  | symlink _ => .symlink

def node : Item → Node
  | file executable bytes => .file executable bytes
  | symlink target => .symlink target

def edit (f : Bytes → Bytes) : Item → Item
  | file executable bytes => .file executable (f bytes)
  | symlink target => .symlink target

def chmod (executable : Bool) : Item → Item
  | file _ bytes => .file executable bytes
  | symlink target => .symlink target

end Item

/-- The calls; a write goes through a handle, which counts those returned so far. -/
inductive FileCall where
  | create (path : RepoPath) (executable : Bool)
  | openWrite (path : RepoPath) (truncate : Bool)
  | write (handle offset : Nat) (data : Bytes)
  | truncate (path : RepoPath) (size : Nat)
  | setExecutable (path : RepoPath) (executable : Bool)
  | symlink (path : RepoPath) (target : Bytes)
  | unlink (path : RepoPath)
  | rename (src dst : RepoPath)
  | look

/-- The items and, for each handle, where its file is if it is not deleted. -/
structure FileModel where
  items : RepoPath → Option Item
  handles : List (Option RepoPath)

namespace FileModel

def modify (m : FileModel) (p : RepoPath) (f : Item → Item) : FileModel :=
  { m with items := update m.items p ((m.items p).map f) }

def opened (m : FileModel) (p : RepoPath) : FileModel := { m with handles := m.handles ++ [some p] }

def unlinked (p : RepoPath) (handle : Option RepoPath) : Option RepoPath :=
  if handle = some p then none else handle

def moved (src dst : RepoPath) (handle : Option RepoPath) : Option RepoPath :=
  if handle = some src then some dst else unlinked dst handle

def step (m : FileModel) : FileCall → FileModel
  | .create p x => opened { m with items := update m.items p (some (.file x [])) } p
  | .openWrite p trunc => (m.modify p (.edit (if trunc then setLen 0 else id))).opened p
  | .write i offset data =>
    match m.handles[i]? with
    | some (some p) => m.modify p (.edit (writeAt offset data))
    | _ => m
  | .truncate p size => m.modify p (.edit (setLen size))
  | .setExecutable p x => m.modify p (.chmod x)
  | .symlink p target => { m with items := update m.items p (some (.symlink target)) }
  | .unlink p => ⟨update m.items p none, m.handles.map (unlinked p)⟩
  | .rename src dst =>
    ⟨update (update m.items dst (m.items src)) src none, m.handles.map (moved src dst)⟩
  | .look => m

def run (m : FileModel) (calls : List FileCall) : FileModel := calls.foldl step m

end FileModel

def Op.Looks : Op → Prop
  | .lookup _ _ | .getattr _ | .readdir _ | .forget _ _ => True
  | _ => False

theorem Op.Looks.overlay {P : Projection} {op : Op} {fuel : Nat} {w t : World} {reply : Reply}
    (hop : op.Looks) (h : (op.handler P fuel).run w = (.ok reply, t)) : t.overlay = w.overlay := by
  cases op with
  | lookup parent name => exact Projection.Quiet.overlay (Prog.within_map _ (Projection.quiet_lookup parent name)) h
  | getattr ino => exact Projection.Quiet.overlay (Prog.within_map _ (Projection.quiet_getattr ino)) h
  | readdir ino => exact Projection.Quiet.overlay (Prog.within_map _ (Projection.quiet_readdir ino)) h
  | forget ino n =>
    exact Projection.Quiet.overlay (P := P) (Prog.within_map _ (Projection.quiet_inodeForget ino n)) h
  | create | openWrite | truncate | unlink | mkdir | rmdir | symlink | rename | setExecutable =>
    exact hop.elim

/-- The mount and the content files of the handles that its client holds. -/
structure Client where
  world : World
  handles : List ContentId

/-- Calls that return `Ok`: new names are absent, what is unlinked or renamed is there, and no
directory is unlinked, renamed or replaced. -/
inductive Client.Step (P : Projection) : Client → FileCall → Client → Prop
  | create {s : Client} {parent : Nat} {name : Bytes} {p : RepoPath} {x : Bool}
    {r : Attr × ContentId} {t : World} (hn : s.world.Names parent name p)
    (habsent : P.resolve s.world.overlay p = .ok none)
    (h : (P.create parent name x).run s.world = (.ok r, t)) :
    Step P s (.create p x) ⟨t, s.handles ++ [r.2]⟩
  | openWrite {s : Client} {ino : Nat} {p : RepoPath} {trunc : Bool} {c : ContentId} {t : World}
    (hp : s.world.pathOf ino = .ok p) (h : (P.openWrite ino trunc).run s.world = (.ok c, t)) :
    Step P s (.openWrite p trunc) ⟨t, s.handles ++ [c]⟩
  | write {s : Client} {i offset : Nat} {c : ContentId} {data : Bytes} (hi : s.handles[i]? = some c) :
    Step P s (.write i offset data) ⟨s.world.write c offset data, s.handles⟩
  | truncate {s : Client} {ino size : Nat} {p : RepoPath} {t : World}
    (hp : s.world.pathOf ino = .ok p) (h : (P.truncate ino size).run s.world = (.ok (), t)) :
    Step P s (.truncate p size) ⟨t, s.handles⟩
  | setExecutable {s : Client} {ino : Nat} {p : RepoPath} {x : Bool} {t : World}
    (hp : s.world.pathOf ino = .ok p) (h : (P.setExecutable ino x).run s.world = (.ok (), t)) :
    Step P s (.setExecutable p x) ⟨t, s.handles⟩
  | symlink {s : Client} {parent : Nat} {name : Bytes} {p : RepoPath} {target : Bytes} {r : Attr}
    {t : World} (hn : s.world.Names parent name p)
    (habsent : P.resolve s.world.overlay p = .ok none)
    (h : (P.symlink parent name target).run s.world = (.ok r, t)) :
    Step P s (.symlink p target) ⟨t, s.handles⟩
  | unlink {s : Client} {parent : Nat} {name : Bytes} {p : RepoPath} {r : Resolved} {t : World}
    (hn : s.world.Names parent name p) (hr : P.resolve s.world.overlay p = .ok (some r))
    (hdir : r.isDir = false) (h : (P.unlink parent name).run s.world = (.ok (), t)) :
    Step P s (.unlink p) ⟨t, s.handles⟩
  | rename {s : Client} {parent newparent fuel : Nat} {name newname : Bytes} {src dst : RepoPath}
    {flags : UInt32} {r : Resolved} {r' : Option Resolved} {t : World}
    (hn : s.world.Names parent name src) (hn' : s.world.Names newparent newname dst)
    (hne : src ≠ dst) (hr : P.resolve s.world.overlay src = .ok (some r)) (hdir : r.isDir = false)
    (hr' : P.resolve s.world.overlay dst = .ok r') (hdir' : ∀ x, r' = some x → x.isDir = false)
    (h : (P.rename fuel parent name newparent newname flags).run s.world = (.ok (), t)) :
    Step P s (.rename src dst) ⟨t, s.handles⟩
  | look {s : Client} {op : Op} {fuel : Nat} {reply : Reply} {t : World} (hop : op.Looks)
    (h : (op.handler P fuel).run s.world = (.ok reply, t)) : Step P s .look ⟨t, s.handles⟩

def Client.fresh (pid : Nat) (journal : Option (State × JournalDir)) : Client :=
  ⟨World.fresh pid journal, []⟩

namespace Projection

variable (P : Projection) (blob : ObjectId → Bytes)

/-- The item that something of the baseline resolves to. -/
def itemOf : Resolved → Option Item
  | .gitfile => some (.file false P.gitfile)
  | .file (.baseline oid) executable => some (.file executable (blob oid))
  | .symlink (.baseline oid) => some (.symlink (blob oid))
  | _ => none

/-- What `p` resolves to in a fresh overlay. -/
def atStart (p : RepoPath) : Except Error (Option Resolved) := P.resolve (Overlay.fresh 0) p

/-- The path is no directory at the start, and it can be told. -/
def Undirected (p : RepoPath) : Prop :=
  ∃ r, P.atStart p = .ok r ∧ ∀ x, r = some x → x.isDir = false

def baseItem (p : RepoPath) : Option Item :=
  match P.atStart p with
  | .ok (some r) => P.itemOf blob r
  | _ => none

def fileModel : FileModel := ⟨P.baseItem blob, []⟩

/-- The tree that the mount shows is the one of `items` within the directories of the start. -/
structure Agrees (w : World) (items : RepoPath → Option Item) : Prop where
  directory : ∀ p, ¬ P.Undirected p → items p = none ∧ P.resolve w.overlay p = P.atStart p
  resolve : ∀ p, P.Undirected p → (P.resolve w.overlay p).map (Option.map Resolved.kind) =
    .ok ((items p).map Item.kind)
  visible : ∀ p, P.Undirected p → P.visible w.overlay p = .ok ((items p).map Item.node)
  lookup : ∀ parent name p reply t, P.Undirected p → w.Names parent name p →
    (P.lookup parent name).run w = (.ok reply, t) → reply.map Attr.kind = (items p).map Item.kind
  openRead : ∀ ino p x bytes, w.pathOf ino = .ok p → items p = some (.file x bytes) →
    ∃ h, (P.openRead ino).run w = (.ok h, w) ∧
      ∀ offset len, P.readAt w.overlay offset len h = some ((bytes.drop offset).take len)
  readlink : ∀ ino p target, w.pathOf ino = .ok p → items p = some (.symlink target) →
    (P.readlink ino).run w = (.ok target, w)

end Projection

end LazyMount
